import Ext2fsX.Locks.Calls

namespace Ext2fsX.Locks

open Framework
open Framework.LockProg

section Rules

variable {held : Finset ℕ} {S : Unit → Finset ℕ → Prop}

theorem wp_loop_iff {body : Prog Unit} (hb : wp body (fun _ h => h=held) held) :
    wp (loop body) S held ↔ S () held := ⟨wp_loop_zero _ _,wp_loop _ _ hb⟩

theorem wp_brief {ip : ℕ} (h : ∀ x∈held,x < ip) : wp (brief ip) S held ↔ S () held := by
  have hn : ip∉held := fun hm => lt_irrefl _ (h ip hm)
  simp only [brief,wp_bind,wp_lock,wp_unlock,Finset.erase_insert hn]
  exact and_iff_right h

theorem wp_visit {vp : ℕ} (h : ∀ x∈held,x<vp) : wp (visit vp) S held ↔ S () held :=
  wp_loop_iff ((wp_brief h).mpr rfl)

theorem wp_blkatoff {vp : ℕ} (h : ∀ x∈held,x<vp) : wp (blkatoff vp) S held ↔ S () held := by
  have hb : wp (brief vp) (fun _ g => wp (visit vp) S g) held ↔ _ := (wp_brief h).trans (wp_visit h)
  simpa only [blkatoff,brief,wp_bind] using hb

theorem wp_relock {ip : ℕ} (hm : ip∈held) (h : ∀ x∈held.erase ip,x < ip) :
    wp (relock ip) S held ↔ S () held := wp_loop_iff ⟨h,Finset.insert_erase hm⟩

@[simp] theorem wp_visitAny : wp visitAny S ∅ ↔ S () ∅ :=
  wp_loop_iff fun _ => (wp_brief (by simp)).mpr rfl

@[simp] theorem wp_brief_empty (ip : ℕ) : wp (brief ip) S ∅ ↔ S () ∅ := wp_brief (by simp)

@[simp] theorem wp_visit_empty (vp : ℕ) : wp (visit vp) S ∅ ↔ S () ∅ := wp_visit (by simp)

@[simp] theorem wp_relock_single (ip : ℕ) : wp (relock ip) S {ip} ↔ S () {ip} :=
  wp_relock (by simp) (by simp)

@[simp] theorem wp_lockWith (ip lip : ℕ) :
    wp (lockWithLockedInode ip lip) S {lip} ↔ ip≠lip ∧ S () {ip,lip} := by
  unfold lockWithLockedInode
  split_ifs with hlt
  · simp [hlt,hlt.ne']
  · simp only [wp_bind,wp_lock,wp_unlock,Finset.erase_singleton,Finset.insert_empty,
      Finset.pair_comm lip ip,Finset.notMem_empty,false_imp_iff,implies_true,true_and,
      Finset.mem_singleton,forall_eq]
    exact and_congr_left fun _ => by omega

end Rules

section Direnter

variable {ip dp : ℕ} {S : Bool → Finset ℕ → Prop}

/-- `ext2_direnter` keeps the order exactly for an inode below its directory. -/
theorem wp_direnter (hs : ∀ e,S e {ip}) : wp (direnter ip dp) S {ip} ↔ ip<dp := by
  constructor
  · intro h
    obtain ⟨hne,hloop⟩ := (wp_lockWith _ _).mp ((wp_bind ..).mp h)
    have herase : ({dp,ip} : Finset ℕ).erase dp={ip} := Finset.erase_insert (by simpa using hne)
    have hplace := wp_loop_zero _ _ ((wp_bind ..).mp hloop)
    simp only [direnterLookup,direnterPlace,direnterCompact,blkatoff,wp_bind,wp_branch,wp_lock,
      wp_unlock,wp_pure,herase,if_true,Bool.false_eq_true,if_false] at hplace
    exact hplace.1.2.2.1 ip (Finset.mem_singleton_self ip)
  · intro h
    have hbelow : ∀ x∈({ip} : Finset ℕ),x<dp := by simpa using h
    have herase : ({dp,ip} : Finset ℕ).erase dp={ip} := Finset.erase_insert (by simpa using h.ne')
    have hrelock (T : Unit → Finset ℕ → Prop) : wp (relock dp) T {dp,ip} ↔ T () {dp,ip} :=
      wp_relock (by simp) (by rwa [herase])
    have hlookup (T : Unit → Finset ℕ → Prop) : wp (lookupi dp) T {ip} ↔ T () {ip} :=
      wp_blkatoff hbelow
    have hloop (T : Unit → Finset ℕ → Prop) :
        wp (loop (do unlock dp; lockWithLockedInode dp ip)) T {dp,ip} ↔ T () {dp,ip} :=
      wp_loop_iff (by simp [herase,h.ne'])
    simp [direnter,direnterLookup,direnterPlace,direnterAppend,direnterCompact,herase,hrelock,
      hlookup,hloop,wp_blkatoff hbelow,wp_visit hbelow,h.ne',hs]

@[simp] theorem wp_enter (hs : ∀ e,S e ∅) : wp (enter ip dp) S ∅ ↔ ip<dp := by
  simp [enter,wp_direnter,hs]

end Direnter

section Calls

variable {S : Unit → Finset ℕ → Prop}

theorem wp_link (hs : S () ∅) (vp tdvp : ℕ) : wp (link vp tdvp) S ∅ ↔ vp<tdvp := by
  simp [link,hs,wp_direnter]

theorem wp_makeinode (hs : S () ∅) (dvp ip : ℕ) : wp (makeinode dvp ip) S ∅ ↔ ip<dvp := by
  have hend (e : Bool) : wp (if e then brief ip else pure ()) S ∅ := by
    cases e <;> simpa using hs
  simp [makeinode,hs,wp_enter hend]

theorem wp_mkdirFill {dvp ip : ℕ} {S : Bool → Finset ℕ → Prop} (hs : ∀ e,S e ∅) :
    wp (mkdirFill dvp ip) S ∅ ↔ ip<dvp := by
  have hend (e : Bool) : wp (if e then do brief dvp; pure e else pure e) S ∅ := by
    cases e <;> simpa using hs _
  simp [mkdirFill,hs,wp_enter hend]

theorem wp_mkdir (hs : S () ∅) (dvp ip : ℕ) : wp (mkdir dvp ip) S ∅ ↔ ip<dvp := by
  have hend (e : Bool) : wp (if e then brief ip else pure ()) S ∅ := by
    cases e <;> simpa using hs
  simp [mkdir,hs,wp_mkdirFill hend]

/-- `ext2_rmdir` rejects its own parent before it locks anything. -/
theorem wp_rmdir (hs : S () ∅) (dvp vp : ℕ) : wp (rmdir dvp vp) S ∅ := by
  unfold rmdir
  split_ifs with hne
  · exact hs
  · have hboth : ((({dvp,vp} : Finset ℕ).erase vp).erase dvp)=∅ := by
      rw [Finset.pair_comm,Finset.erase_insert (by simpa using Ne.symm hne),Finset.erase_singleton]
    simp [hne,hboth,hs]

end Calls

namespace Rename

variable {r : Rename} {S : Bool → Finset ℕ → Prop} {T : Unit → Finset ℕ → Prop}

theorem wp_target (hs : S true ∅) : wp r.target S ∅ ↔ S false ∅ := by
  unfold target
  cases r.tvp <;> simp [hs]

theorem wp_intoFree (hs : ∀ e,S e ∅) : wp r.intoFree S ∅ ↔ r.fvp < r.tdvp := by
  have hunbump (e : Bool) : wp (r.unbumpParent e) (fun _ g => S e g) ∅ := by
    unfold unbumpParent
    split_ifs <;> simp [hs]
  have hbump (e : Bool) : wp (r.bumpParent e) (fun err g => wp (if err then pure true else do
      let err ← enter r.fvp r.tdvp
      r.unbumpParent err
      pure err) S g) ∅ ↔ (r.moves=true ∧ e=true) ∨ r.fvp < r.tdvp := by
    unfold bumpParent
    split_ifs <;> simp_all [wp_enter]
  have herase (h : r.fvp≠r.tdvp) : ({r.fvp,r.tdvp} : Finset ℕ).erase r.fvp={r.tdvp} :=
    Finset.erase_insert (by simpa using h)
  by_cases hne : r.fvp=r.tdvp
  · simp [intoFree,hne]
  · simp only [intoFree,wp_bind,wp_lock,wp_unlock,wp_branch,Finset.insert_empty,wp_lockWith,
      herase hne,Finset.erase_singleton,hbump]
    simp [hne]
    omega

theorem wp_intoUsed {x : ℕ} (hs : ∀ e,S e ∅) : wp (r.intoUsed x) S ∅ ↔ x≠r.tdvp := by
  have hdrop (T : Unit → Finset ℕ → Prop) : wp r.dropParent T ∅ ↔ T () ∅ := by
    unfold dropParent
    split_ifs <;> simp
  by_cases hne : x=r.tdvp
  · simp [intoUsed,hne]
  · have herase : ({x,r.tdvp} : Finset ℕ).erase r.tdvp={x} := by
      rw [Finset.pair_comm,Finset.erase_insert (by simpa using Ne.symm hne)]
    simp [intoUsed,hne,herase,hdrop,hs]

theorem wp_unlinkSource : wp r.unlinkSource T ∅ ↔ T () ∅ := by
  unfold unlinkSource fixDotdot
  split_ifs <;> simp

/-- `ext2_checkpath_nolock` may pass, unless the source is to be moved into itself. -/
def PathOk (r : Rename) : Prop := r.moves=true → r.tdvp≠r.fvp

theorem wp_checkPath (ht : S true ∅) : wp r.checkPath S ∅ ↔ (r.PathOk → S false ∅) := by
  unfold checkPath checkpath PathOk
  split_ifs <;> simp_all

def IntoOk (r : Rename) : Prop :=
  match r.tvp with
  | none => r.fvp < r.tdvp
  | some x => x≠r.tdvp

theorem wp_into (hs : ∀ e,S e ∅) : wp r.into S ∅ ↔ r.IntoOk := by
  unfold into IntoOk
  cases r.tvp with
  | none => exact wp_intoFree hs
  | some x => exact wp_intoUsed hs

theorem wp_move (ht : T () ∅) : wp r.move T ∅ ↔ (r.PathOk → r.IntoOk) := by
  have hend (e : Bool) : wp (if e then brief r.fvp else r.unlinkSource) T ∅ := by
    cases e <;> simpa [wp_unlinkSource] using ht
  simp [move,ht,wp_checkPath,wp_into hend]

/-- Source and target are one file, or neither is its own parent and a source to be entered is below
the directory it goes to; a directory to be moved into itself is refused before that. -/
def InOrder (r : Rename) : Prop :=
  r.tvp=some r.fvp ∨ (r.fdvp≠r.fvp ∧ (r.PathOk → r.IntoOk))

theorem wp_run (ht : T () ∅) : wp r.run T ∅ ↔ r.InOrder := by
  unfold run InOrder
  rw [wp_bind,wp_target (by simpa using ht)]
  by_cases hsame : r.tvp=some r.fvp
  · simp [hsame,ht]
  · by_cases hne : r.fdvp=r.fvp
    · simp [hsame,hne]
    · have herase : ({r.fdvp,r.fvp} : Finset ℕ).erase r.fdvp={r.fvp} :=
        Finset.erase_insert (by simpa using hne)
      simp [hsame,hne,herase,ht,wp_move]

end Rename

/-- The calls whose vnodes are numbered so that the order is kept. -/
def Call.InOrder : Call → Prop
  | .rename r => r.InOrder
  | .link vp tdvp => vp<tdvp
  | .mkdir dvp ip => ip<dvp
  | .rmdir _ _ => True
  | .makeinode dvp ip => ip<dvp
  | .direnter ip dp => ip<dp

deriving instance Decidable for Rename.PathOk

instance : (r : Rename) → Decidable r.IntoOk
  | ⟨_,fvp,tdvp,none,_⟩ => inferInstanceAs (Decidable (fvp<tdvp))
  | ⟨_,_,tdvp,some x,_⟩ => inferInstanceAs (Decidable (x≠tdvp))

deriving instance Decidable for Rename.InOrder

instance : (c : Call) → Decidable c.InOrder
  | .rename r => inferInstanceAs (Decidable r.InOrder)
  | .link vp tdvp => inferInstanceAs (Decidable (vp<tdvp))
  | .mkdir dvp ip => inferInstanceAs (Decidable (ip<dvp))
  | .rmdir _ _ => .isTrue trivial
  | .makeinode dvp ip => inferInstanceAs (Decidable (ip<dvp))
  | .direnter ip dp => inferInstanceAs (Decidable (ip<dp))

theorem wp_prog_iff {S : Unit → Finset ℕ → Prop} (hs : S () ∅) (c : Call) :
    wp c.prog S ∅ ↔ c.InOrder := by
  cases c with
  | rename r => exact Rename.wp_run hs
  | link vp tdvp => exact wp_link hs vp tdvp
  | mkdir dvp ip => exact wp_mkdir hs dvp ip
  | rmdir dvp vp => exact iff_of_true (wp_rmdir hs dvp vp) trivial
  | makeinode dvp ip => exact wp_makeinode hs dvp ip
  | direnter ip dp => exact (wp_bind ..).trans (wp_enter fun _ => hs)

section Runs

variable {τ : Type}

def StartsInOrder (_ : Threads ℕ τ) : ThreadAct Call τ → Prop
  | .start _ c => c.InOrder
  | _ => True

instance (s : Threads ℕ τ) : (x : ThreadAct Call τ) → Decidable (StartsInOrder s x)
  | .start _ c => inferInstanceAs (Decidable c.InOrder)
  | .go _ => .isTrue trivial
  | .answer _ _ => .isTrue trivial

theorem StartsInOrder.ordered {s : Threads ℕ τ} {x : ThreadAct Call τ} (h : StartsInOrder s x) :
    StartsOrdered Call.prog s x := by
  cases x with
  | start t c => exact (wp_prog_iff rfl c).mpr h
  | _ => trivial

end Runs

/-- A call acquires inode mutexes in strictly increasing order exactly when its vnodes are in order;
however many threads make such calls, each waits only for mutexes above all its own, and no set of
them is deadlocked. -/
theorem lock_order_iff (c : Call) {τ : Type} [DecidableEq τ] (s : Threads ℕ τ) :
    (Increasing c.prog ↔ c.InOrder) ∧
      ((threadMachine Call.prog).Reach StartsInOrder s →
        (∀ t m k,s.prog t=.acquire m k → ∀ x,s.owner x=some t → x < m) ∧ ¬s.Deadlock) := by
  refine ⟨wp_prog_iff trivial c,fun hr => ?_⟩
  have hd := reach_disciplined Call.prog (hr.mono (fun s x => StartsInOrder.ordered))
  refine ⟨fun t m k hp x hx => ?_,hd.not_deadlock⟩
  have hw := hd.ordered t
  rw [hp] at hw
  exact hw.1 x ((hd.owns x t).mp hx)

def idle : Threads ℕ Bool := ⟨fun _ => .ret (),fun _ => none,fun _ => ∅⟩

theorem idle_init : (threadMachine (τ := Bool) Call.prog).init idle :=
  ⟨fun _ => rfl,fun _ => rfl,fun _ => rfl⟩

/-- One links 10 into directory 20 and waits for its lock, the other renames 10 out of 20. -/
def linkAndRename : List (ThreadAct Call Bool) :=
  [.start true (.link 10 20),.go true,.answer true 0,.go true,.answer true 0,.go true,
    .answer true 0,.start false (.rename ⟨20,10,20,none,false⟩)]

theorem lock_order_linkAndRename :
    ∃ s,(threadMachine Call.prog).exec linkAndRename idle=some s ∧
      s.owner 10=some true ∧ (∃ k,s.prog true=.acquire 20 k) ∧ (∃ k,s.prog false=.acquire 10 k) ∧
      ¬s.Deadlock ∧ Increasing (Call.link 10 20).prog := by
  have he : (threadMachine Call.prog).exec linkAndRename idle=some _ := rfl
  have hmeets : (threadMachine Call.prog).Meets StartsInOrder linkAndRename idle := by
    decide +kernel
  have hr := (Machine.Reach.start idle_init).exec hmeets he
  refine ⟨_,he,rfl,⟨_,rfl⟩,⟨_,rfl⟩,((lock_order_iff (.link 10 20) _).2 hr).2,?_⟩
  exact (lock_order_iff (.link 10 20) idle).1.mpr (by decide)

/-- A rename of 20 out of 10 gives 20 up to take 10 first; a link of 20 into 10 takes both and gives
up 10 to read a block. -/
def renameThenLink : List (ThreadAct Call Bool) :=
  [.start false (.rename ⟨10,20,12,none,false⟩),.go false,.answer false 0,.go false,
    .start true (.link 20 10),.go true,.answer true 0,.go true,.answer true 0,.go true,
    .answer true 0,.go true,.go true,.go true,.answer true 0,.answer true 1,.answer true 0,
    .answer true 0,.go true,.go false]

def renameDot : List (ThreadAct Call Bool) :=
  [.start true (.rename ⟨10,10,12,none,true⟩),.go true,.answer true 0,.go true,.go true]

/-- Two calls that wait for each other, and a call that waits for itself before it would
have been refused. -/
theorem calls_deadlock :
    (∃ s,(threadMachine Call.prog).exec renameThenLink idle=some s ∧
      s.owner 20=some true ∧ (∃ k,s.prog true=.acquire 10 k) ∧
      s.owner 10=some false ∧ (∃ k,s.prog false=.acquire 20 k) ∧ s.Deadlock) ∧
    ∃ s,(threadMachine Call.prog).exec renameDot idle=some s ∧
      s.owner 10=some true ∧ (∃ k,s.prog true=.acquire 10 k) ∧ s.Deadlock := by
  constructor
  · refine ⟨_,rfl,rfl,⟨_,rfl⟩,rfl,⟨_,rfl⟩,{true,false},by simp,fun t _ => ?_⟩
    cases t with
    | true => exact ⟨10,_,rfl,false,by simp,rfl⟩
    | false => exact ⟨20,_,rfl,true,by simp,rfl⟩
  · refine ⟨_,rfl,rfl,⟨_,rfl⟩,{true},by simp,fun t ht => ?_⟩
    obtain rfl := Finset.mem_singleton.mp ht
    exact ⟨10,_,rfl,true,by simp,rfl⟩

end Ext2fsX.Locks
