import Ext2fsX.Growth.Taking

namespace Ext2fsX.Growth

open Framework
open Alloc (Slot target level level_cons target_level)
open Blocks (Geometry Errno Stop int32)

variable {g : Geometry} {f0 f f' : File}

structure Inv (g : Geometry) (f0 f : File) : Prop where
  wf : WellFormed g f
  accounted : ∀ b,f.used b=true → Reached g f b ∨ InWindow f b ∨ Foreign g f0 b
  bounded : Bounded f

theorem int32_add_congr (x : ℤ) {m n : ℕ} (h : m%2^32=n) : int32 (x+m)=int32 (x+n) := by
  rw [int32,int32,Int.bmod_def,Int.bmod_def]
  omega

theorem btodb_block (g : Geometry) :
    0<btodb g.blocksize ∧ btodb g.blocksize<2^32 ∧ btodb g.blocksize%2^32=btodb g.blocksize := by
  have hle : 2^g.logBlockSize≤2^2 := Nat.pow_le_pow_right (by decide) g.log_le
  have hpos := Nat.two_pow_pos g.logBlockSize
  unfold btodb Geometry.blocksize
  omega

theorem WellFormed.window_used (h : WellFormed g f) (x : ℕ) (hx : InWindow f x) :
    f.used x=true ∧ 0<x := ⟨(h.window x hx).1,(h.window x hx).2.2⟩

theorem accounted_self (g : Geometry) (f : File) (b : ℕ) (hb : f.used b=true) :
    Reached g f b ∨ InWindow f b ∨ Foreign g f b := by
  by_cases hr : Reached g f b
  · exact .inl hr
  · by_cases hw : InWindow f b
    · exact .inr (.inl hw)
    · exact .inr (.inr ⟨hb,hr,hw⟩)

theorem WellFormed.not_reached (h : WellFormed g f) {b : ℕ} (hb : f.used b=false ∨ InWindow f b) :
    ¬Reached g f b := by
  intro hr
  rcases hb with hu | hw
  · rw [h.reached b hr] at hu
    cases hu
  · exact (h.window b hw).2.1 hr

theorem Taken.not_reached (h : WellFormed g f) {b : ℕ} (ht : Taken f f' b) : ¬Reached g f b :=
  h.not_reached ht.fresh

variable {f1 : File}

namespace Inv

theorem refl (h : WellFormed g f) (hb : Bounded f) : Inv g f f := ⟨h,accounted_self g f,hb⟩

theorem clean (h : Inv g f0 f) : Clean g f0 f := ⟨h.wf.blocks,h.accounted,h.wf.reached⟩

theorem refused (h : Inv g f0 f) (hr : Refused f f') : Clean g f0 f' where
  balanced := by
    rw [hr.blocks,h.wf.blocks]
    exact (sectors_congr (reached_congr hr.ptr)).symm
  accounted b hb := by
    rcases hr.back b hb with hw | ⟨hu,hn⟩
    · exact .inr (.inl hw)
    · rcases h.accounted b hu with hreach | hw | hfor
      · exact .inl ((reached_congr hr.ptr b).mpr hreach)
      · exact absurd hw hn
      · exact .inr (.inr hfor)
  referenced b hb := by
    have hreach := (reached_congr hr.ptr b).mp hb
    exact hr.kept b (h.wf.reached b hreach) fun hw => (h.wf.window b hw).2.1 hreach

theorem none {a : Answer} {size : ℕ} (h : Inv g f0 f) (ha : f.alloc a size=(f',none)) :
    Clean g f0 f' := h.refused (alloc_none h.wf.window_used h.bounded ha)

theorem stored (h : Inv g f0 f) {b size : ℕ} (ht : Taken f f1 b)
    (hsize : btodb size%2^32=btodb g.blocksize) (hblocks : f'.blocks=int32 (f.blocks+btodb size))
    (hused : f'.used=f1.used) (hwindow : ∀ x,InWindow f' x ↔ InWindow f1 x)
    (hreach : ∀ x,Reached g f' x ↔ Reached g f x ∨ x=b) : Inv g f0 f' := by
  have hnew := ht.not_reached h.wf
  have hkept (x : ℕ) (hx : Reached g f x) : f1.used x=true :=
    ht.kept x (h.wf.reached x hx) fun hw => (h.wf.window x hw).2.1 hx
  refine ⟨⟨?_,?_,?_⟩,?_,?_⟩
  · intro x hx
    rw [hused]
    rcases (hreach x).mp hx with hx | rfl
    · exact hkept x hx
    · exact ht.used
  · intro x hx
    obtain ⟨hu,hne,hpos,hold⟩ := ht.window x ((hwindow x).mp hx)
    refine ⟨hused ▸ hu,?_,hpos⟩
    rw [hreach]
    rintro (hr | he)
    · exact h.wf.not_reached hold hr
    · exact hne he
  · rw [hblocks,sectors_insert hnew hreach,h.wf.blocks]
    exact int32_add_congr _ hsize
  · intro x hx
    rw [hused] at hx
    rcases ht.back x hx with rfl | hw | ⟨hu,hn⟩
    · exact .inl ((hreach x).mpr (.inr rfl))
    · exact .inr (.inl ((hwindow x).mpr hw))
    · rcases h.accounted x hu with hr | hw | hfor
      · exact .inl ((hreach x).mpr (.inl hr))
      · exact absurd hw hn
      · exact .inr (.inr hfor)
  · intro x hx
    rw [hused,hwindow] at hx
    exact h.bounded x (ht.fresh_before hx)

end Inv

def WritesSucceed (ans : ℕ → Answer) : Prop := ∀ i,(ans i).write=true ∧ (ans i).link=true

variable {a : Answer}

theorem link_store (f : File) {sync : Bool} (h : a.link=true ∨ sync=false) (p : Slot) (b : ℕ) : f.link sync a p b=f.store p b := by
  apply if_neg
  rintro ⟨hs,hl⟩
  rcases h with h | h
  · rw [h] at hl
    cases hl
  · rw [h] at hs
    cases hs

variable {o : ℕ} {q : Slot} {e : Errno}

theorem live_store {b : ℕ} (hq : Live f.ptr q) (h0 : f.ptr (o::q)=0) (hb : b≠0) : Live (f.store (o::q) b).ptr (o::q) := by
  have hself : (f.store (o::q) b).ptr (o::q)=b := Function.update_self ..
  refine ⟨fun h => hb (hself.symm.trans h),hq.mono ?_⟩
  intro i p hl
  have hne : i::p≠o::q := by
    intro he
    rw [he] at hl
    exact hl.1 h0
  exact Function.update_of_ne hne ..

theorem Inv.data (h : Inv g f0 f) {b size : ℕ}
    (hsize : btodb size%2^32=btodb g.blocksize) (hlevel : level g (o::q)=some 0) (hq : Live f.ptr q)
    (h0 : f.ptr (o::q)=0) (ha : f.alloc a size=(f',some b)) :
    Inv g f0 (f'.store (o::q) b) ∧ Live (f'.store (o::q) b).ptr (o::q) := by
  obtain ⟨ht,-,hblocks⟩ := alloc_some h.wf.window_used ha
  have hq' : Live f'.ptr q := ht.ptr.symm ▸ hq
  have h0' : f'.ptr (o::q)=0 := ht.ptr.symm ▸ h0
  refine ⟨h.stored ht hsize hblocks rfl (fun _ => Iff.rfl) ?_,live_store hq' h0' ht.pos.ne'⟩
  intro x
  rw [reached_store (by rw [hlevel]; rfl) hq' h0' ht.pos.ne' (fun o' hs => absurd hs (no_slots_under hlevel)),
    reached_congr ht.ptr]

theorem Inv.indirect (h : Inv g f0 f) {b : ℕ} (hlevel : (level g (o::q)).isSome)
    (hq : Live f.ptr q) (h0 : f.ptr (o::q)=0) (ha : f.alloc a g.blocksize=(f',some b)) :
    Inv g f0 ((f'.clear (o::q)).store (o::q) b) ∧
      Live ((f'.clear (o::q)).store (o::q) b).ptr (o::q) := by
  obtain ⟨ht,-,hblocks⟩ := alloc_some h.wf.window_used ha
  have h0' : f'.ptr (o::q)=0 := ht.ptr.symm ▸ h0
  have hq' : Live (f'.clear (o::q)).ptr q := (Live.clearUnder_iff h0' q).mpr (ht.ptr.symm ▸ hq)
  have h0'' : (f'.clear (o::q)).ptr (o::q)=0 := (clear_self f' o q).trans h0'
  refine ⟨h.stored ht (btodb_block g).2.2 hblocks rfl (fun _ => Iff.rfl) ?_,
    live_store hq' h0'' ht.pos.ne'⟩
  intro x
  rw [reached_store hlevel hq' h0'' ht.pos.ne' (fun o' _ => clear_under f' o o' q),
    reached_clear h0',reached_congr ht.ptr]

theorem NoBlock.alloc_none (hn : NoBlock f) (hw : ∀ x,InWindow f x → f.used x=true ∧ 0<x)
    {size b : ℕ} : f.alloc a size≠(f',some b) := by
  intro h
  have ht := (alloc_some hw h).1
  exact hn b ht.pos.ne' ht.fresh

variable {fl : Flags}

theorem ballocData_clean (h : Inv g f0 f) (hlevel : level g (o::q)=some 0) (hq : Live f.ptr q)
    (hw : a.link=true ∨ NoBlock f ∨ fl.sync=false) (hr : f.ballocData g fl a (o::q)=(f',e)) :
    Clean g f0 f' ∧ (e=.ok → Live f'.ptr (o::q)) := by
  unfold File.ballocData at hr
  by_cases h0 : f.ptr (o::q)=0
  · rw [if_neg (not_not.mpr h0)] at hr
    rcases ha : f.alloc a g.blocksize with ⟨f1,r⟩
    rw [ha] at hr
    cases r with
    | none =>
      cases hr
      exact ⟨h.none ha,nofun⟩
    | some b =>
      have hlink : a.link=true ∨ fl.sync=false := by
        rcases hw with hw | hw | hw
        · exact .inl hw
        · exact absurd ha (hw.alloc_none h.wf.window_used)
        · exact .inr hw
      cases hr
      rw [link_store f1 hlink]
      obtain ⟨hinv,hlive⟩ := h.data (btodb_block g).2.2 hlevel hq h0 ha
      exact ⟨hinv.clean,fun _ => hlive⟩
  · rw [if_pos h0] at hr
    split at hr
    · cases hr
      exact ⟨h.clean,nofun⟩
    · cases hr
      exact ⟨h.clean,fun _ => ⟨h0,hq⟩⟩

variable {ans : ℕ → Answer}

theorem ballocPath_clean (rest : List ℕ) (p : Slot) (i : ℕ) (h : Inv g f0 f)
    (hlevel : level g p=some rest.length) (hrest : ∀ o∈rest,o<g.nindir) (hp : Live f.ptr p)
    (hw : WritesSucceed ans ∨ NoBlock f ∨ fl.sync=false ∧ Live f.ptr (rest.reverse++p).tail)
    (hr : f.ballocPath g fl ans rest p i=(f',e)) :
    Clean g f0 f' ∧ (e=.ok → Live f'.ptr (rest.reverse++p)) := by
  induction rest generalizing p i f with
  | nil =>
    cases hr
    exact ⟨h.clean,fun _ => hp⟩
  | cons o rest ih =>
    have hlevel' : level g (o::p)=some rest.length := by
      refine level_path [o] p ?_ fun x hx => hrest x (List.mem_of_mem_head? (List.mem_singleton.mp hx ▸ rfl))
      rw [hlevel,List.length_cons,List.length_singleton,Nat.add_comm]
    have hrest' : ∀ x∈rest,x<g.nindir := fun x hx => hrest x (List.mem_cons_of_mem o hx)
    rw [List.reverse_cons,← List.append_cons] at hw ⊢
    rw [File.ballocPath] at hr
    split at hr
    · cases hr
      exact ⟨h.clean,nofun⟩
    by_cases hend : rest=[]
    · subst hend
      refine ballocData_clean h hlevel' hp ?_ hr
      exact hw.imp (fun hw => (hw i).2) (Or.imp_right fun hw => hw.1)
    rw [if_neg (by simpa using hend)] at hr
    by_cases h0 : f.ptr (o::p)=0
    · rw [if_neg (not_not.mpr h0)] at hr
      rcases ha : f.alloc (ans i) g.blocksize with ⟨f1,r⟩
      rw [ha] at hr
      cases r with
      | none =>
        cases hr
        exact ⟨h.none ha,nofun⟩
      | some b =>
        -- a path without a gap does not come here
        have hwrite : WritesSucceed ans := by
          rcases hw with hw | hw | hw
          · exact hw
          · exact absurd ha (hw.alloc_none h.wf.window_used)
          · rw [List.tail_append_of_ne_nil (by simpa using hend)] at hw
            exact absurd h0 (live_suffix _ _ hw.2).1
        dsimp only at hr
        rw [if_neg (by rw [(hwrite i).1]; decide),link_store _ (.inl (hwrite i).2)] at hr
        obtain ⟨hinv,hlive⟩ := h.indirect (by rw [hlevel']; rfl) hp h0 ha
        exact ih (o::p) (i+1) hinv hlevel' hrest' hlive (.inl hwrite) hr
    · rw [if_pos h0] at hr
      exact ih (o::p) (i+1) h hlevel' hrest' ⟨h0,hp⟩ hw hr

theorem ballocPath_live (fl : Flags) (ans : ℕ → Answer) (rest : List ℕ) (p : Slot) (i : ℕ)
    (hl : Live f.ptr (rest.reverse++p)) : (f.ballocPath g fl ans rest p i).1=f := by
  induction rest generalizing p i with
  | nil => rfl
  | cons o rest ih =>
    rw [List.reverse_cons,List.append_assoc] at hl
    have h0 : f.ptr (o::p)≠0 := (live_suffix rest.reverse (o::p) hl).1
    rw [File.ballocPath,File.ballocData,if_pos h0,if_pos h0]
    split
    · rfl
    · split
      · split <;> rfl
      · exact ih (o::p) (i+1) hl

theorem ballocPath_skip (hread : ∀ i,(ans i).read=true) (pre : List ℕ) (o : ℕ) (post : List ℕ)
    (p : Slot) (i : ℕ) (hl : Live f.ptr (pre.reverse++p)) :
    f.ballocPath g fl ans (pre++o::post) p i=
      f.ballocPath g fl ans (o::post) (pre.reverse++p) (i+pre.length) := by
  induction pre generalizing p i with
  | nil => rfl
  | cons x pre ih =>
    rw [List.reverse_cons,List.append_assoc] at hl ⊢
    have h0 : f.ptr (x::p)≠0 := (live_suffix pre.reverse (x::p) hl).1
    have hne : (pre++o::post).isEmpty=false := by simp
    rw [List.cons_append,File.ballocPath,if_neg (by simp [hread i]),if_neg (by simp [hne]),if_pos h0,
      ih (x::p) (i+1) hl,List.length_cons]
    congr 1
    omega

theorem not_clean_lost (hf : WellFormed g f) {b : ℕ} (hfree : f.used b=false ∨ InWindow f b)
    (hptr : f'.ptr=f.ptr) (hused : f'.used b=true) (hwindow : ¬InWindow f' b) : ¬Clean g f f' := by
  intro hc
  rcases hc.accounted b hused with hr | hw | ⟨hu,-,hn⟩
  · exact hf.not_reached hfree ((reached_congr hptr b).mp hr)
  · exact hwindow hw
  · rcases hfree with h | h
    · rw [hu] at h
      cases h
    · exact hn h

theorem int32_add_inj {x : ℤ} {m n : ℕ} (h : int32 (x+m)=int32 (x+n)) : m%2^32=n%2^32 := by
  rw [int32,int32,Int.bmod_def,Int.bmod_def] at h
  omega

theorem WellFormed.int32_blocks (h : WellFormed g f) : int32 f.blocks=f.blocks := by
  rw [h.blocks,sectors_int32]

theorem not_clean_counted (hf : WellFormed g f) (hptr : f'.ptr=f.ptr)
    (hblocks : f'.blocks=int32 (f.blocks+btodb g.blocksize)) : ¬Clean g f f' := by
  intro hc
  have hsame : f'.blocks=f.blocks := by
    rw [hc.balanced,hf.blocks]
    exact sectors_congr (reached_congr hptr)
  have hzero : int32 (f.blocks+(0 : ℕ))=f.blocks := by rw [Nat.cast_zero,add_zero,hf.int32_blocks]
  have hmod := int32_add_inj (hblocks.symm.trans (hsame.trans hzero.symm))
  have hpos := btodb_block g
  omega

theorem live_tail {ptr : Slot → ℕ} {p : Slot} (h : Live ptr p) : Live ptr p.tail := by
  cases p with
  | nil => exact h
  | cons o q => exact h.2

variable {offs : List ℕ}

/-- The call of `ext2_balloc2` stops at the first gap if it gets no block there. -/
theorem balloc2_refused {bn size k : ℕ} (hread : a.read=true) (ht : target g bn=some (k,offs))
    (hgap : ¬Live f.ptr (dataSlot k offs)) (ha : ∀ n,f.alloc a n=(f1,none)) :
    f.balloc2 g fl (fun _ => a) bn size=.ok (f1,.enospc) := by
  unfold File.balloc2
  rw [ht]
  by_cases h0 : f.ptr [k]=0
  · cases offs with
    | nil =>
      dsimp only
      rw [File.ballocDirect,if_neg (not_not.mpr h0),ha]
    | cons o rest =>
      dsimp only
      rw [if_neg (not_not.mpr h0),ha]
  · obtain ⟨pre,o,post,rfl,hl,hz⟩ := first_gap (p := [k]) ⟨h0,trivial⟩ hgap
    have hpath : f.ballocPath g fl (fun _ => a) (pre++o::post) [k] 1=(f1,.enospc) := by
      rw [ballocPath_skip (fun _ => hread) pre o post [k] 1 hl,File.ballocPath,
        if_neg (by simp [hread]),File.ballocData,if_neg (not_not.mpr hz),if_neg (not_not.mpr hz),ha]
      exact ite_self _
    cases hoffs : pre++o::post with
    | nil => exact absurd hoffs (by simp)
    | cons x rest =>
      dsimp only
      rw [if_pos h0,← hoffs,hpath]

theorem first_inner_gap {ptr : Slot → ℕ} {k : ℕ} (h0 : ptr [k]≠0)
    (hgap : ¬Live ptr (dataSlot k offs).tail) :
    ∃ pre o post,offs=pre++o::post ∧ post≠[] ∧ Live ptr (pre.reverse++[k]) ∧
      ptr (o::(pre.reverse++[k]))=0 := by
  obtain ⟨pre,o,post,hsplit,hl,hz⟩ :=
    first_gap (p := [k]) ⟨h0,trivial⟩ fun hl => hgap (live_tail hl)
  refine ⟨pre,o,post,hsplit,?_,hl,hz⟩
  rintro rfl
  apply hgap
  rw [dataSlot,hsplit,List.reverse_append]
  exact hl

variable {bn size k b : ℕ}

theorem balloc2_unwritten (hread : a.read=true) (hwrite : a.write=false)
    (ht : target g bn=some (k,offs)) (hgap : ¬Live f.ptr (dataSlot k offs).tail)
    (ha : f.alloc a g.blocksize=(f1,some b)) :
    f.balloc2 g fl (fun _ => a) bn size=.ok (f1.blkfree g b,.eio) := by
  unfold File.balloc2
  rw [ht]
  cases hoffs : offs with
  | nil =>
    subst hoffs
    exact absurd trivial hgap
  | cons x rest =>
    dsimp only
    by_cases h0 : f.ptr [k]=0
    · rw [if_neg (not_not.mpr h0),ha]
      exact if_pos hwrite
    · obtain ⟨pre,o,post,hsplit,hpost,hl,hz⟩ := first_inner_gap h0 hgap
      rw [if_pos h0,← hoffs,hsplit,ballocPath_skip (fun _ => hread) pre o post [k] 1 hl,
        File.ballocPath,if_neg (by simp [hread]),if_neg (by simpa using hpost),if_neg (not_not.mpr hz),ha]
      dsimp only
      rw [if_pos hwrite]

theorem balloc2_direct (ht : target g bn=some (k,[])) (h0 : f.ptr [k]=0)
    (ha : f.alloc a (f.nsize g k size)=(f1,some b)) :
    f.balloc2 g fl (fun _ => a) bn size=.ok (f1.store [k] b,.ok) := by
  unfold File.balloc2
  rw [ht]
  dsimp only
  rw [File.ballocDirect,if_neg (not_not.mpr h0),ha]

theorem balloc2_data (hread : a.read=true) (ht : target g bn=some (k,offs)) (hne : offs≠[])
    (hl : Live f.ptr (dataSlot k offs).tail) (h0 : f.ptr (dataSlot k offs)=0)
    (ha : f.alloc a g.blocksize=(f1,some b)) :
    f.balloc2 g fl (fun _ => a) bn size=.ok (f1.link fl.sync a (dataSlot k offs) b,.ok) := by
  obtain ⟨pre,o,rfl⟩ := (List.eq_nil_or_concat' offs).resolve_left hne
  have hslot : dataSlot k (pre++[o])=o::(pre.reverse++[k]) := by
    rw [dataSlot,List.reverse_append]
    rfl
  rw [hslot] at hl h0 ⊢
  have hroot : f.ptr [k]≠0 := (live_suffix pre.reverse [k] hl).1
  unfold File.balloc2
  rw [ht]
  cases hoffs : pre++[o] with
  | nil => exact absurd hoffs hne
  | cons x rest =>
    dsimp only
    rw [if_pos hroot,← hoffs,ballocPath_skip (fun _ => hread) pre o [] [k] 1 hl,File.ballocPath,
      if_neg (by simp [hread]),if_pos List.isEmpty_nil,File.ballocData,if_neg (not_not.mpr h0),ha]

def Settled (g : Geometry) (f : File) (bn : ℕ) (r : Except Stop (File × Errno)) : Prop :=
  ∀ f' e,r=.ok (f',e) →
    Clean g f f' ∧ (e=.ok → ∀ k offs,target g bn=some (k,offs) → Live f'.ptr (dataSlot k offs))

/-- The block is there, or none can be had; or every block number fits an `int`, a direct block is
allocated in full and, if writes may fail, no indirect block is missing and the pointer to the data
is not written at once. -/
def Secure (g : Geometry) (f : File) (fails : Bool) (sync : Bool) (bn size : ℕ) : Prop :=
  ∀ k offs,target g bn=some (k,offs) → Live f.ptr (dataSlot k offs) ∨ NoBlock f ∨
    Bounded f ∧ (offs=[] → btodb (f.nsize g k size)%2^32=btodb g.blocksize) ∧
      (fails=true → Live f.ptr (dataSlot k offs).tail ∧ (offs=[] ∨ sync=false))

theorem Clean.refl (hf : WellFormed g f) : Clean g f f := ⟨hf.blocks,accounted_self g f,hf.reached⟩

theorem NoBlock.bounded (hn : NoBlock f) : Bounded f := by
  intro b hb
  by_cases h0 : b=0
  · omega
  · exact absurd hb (hn b h0)

theorem exists_block (h : ¬NoBlock f) : ∃ b,b≠0 ∧ (f.used b=false ∨ InWindow f b) := by
  simpa only [NoBlock,not_forall,not_not,exists_prop] using h

theorem ballocDirect_clean (hf : WellFormed g f) {k size : ℕ} (hk : level g [k]=some 0)
    (hs : Live f.ptr [k] ∨ NoBlock f ∨ Bounded f ∧ btodb (f.nsize g k size)%2^32=btodb g.blocksize)
    (hr : f.ballocDirect g fl a k size=.ok (f',e)) :
    Clean g f f' ∧ (e=.ok → Live f'.ptr [k]) := by
  unfold File.ballocDirect at hr
  by_cases h0 : f.ptr [k]=0
  · rw [if_neg (not_not.mpr h0)] at hr
    have hs' := hs.resolve_left fun hl => hl.1 h0
    have hinv : Inv g f f := Inv.refl hf (hs'.elim NoBlock.bounded fun h => h.1)
    rcases ha : f.alloc a (f.nsize g k size) with ⟨f1,r⟩
    rw [ha] at hr
    cases r with
    | none =>
      cases hr
      exact ⟨hinv.none ha,nofun⟩
    | some b =>
      have hsize := (hs'.resolve_left fun hn => hn.alloc_none hf.window_used ha).2
      cases hr
      obtain ⟨hstored,hlive⟩ := hinv.data hsize hk trivial h0 ha
      exact ⟨hstored.clean,fun _ => hlive⟩
  · rw [if_pos h0] at hr
    split at hr
    · have hsame : (f',e).1=f := by
        rw [← Except.ok.inj hr]
        split <;> rfl
      obtain rfl : f'=f := hsame
      exact ⟨Clean.refl hf,fun _ => ⟨h0,trivial⟩⟩
    · cases hr

theorem balloc2_clean (hf : WellFormed g f) {fails : Bool} {bn size : ℕ}
    (hs : Secure g f fails fl.sync bn size) (hans : fails=false → WritesSucceed ans) :
    Settled g f bn (f.balloc2 g fl ans bn size) := by
  intro f' e hr
  unfold File.balloc2 at hr
  cases ht : target g bn with
  | none =>
    rw [ht] at hr
    cases hr
    exact ⟨Clean.refl hf,nofun⟩
  | some x =>
    obtain ⟨k,offs⟩ := x
    obtain ⟨hlevel,hoffs⟩ := target_level ht
    have hs' := hs k offs ht
    rw [ht] at hr
    suffices hgoal : Clean g f f' ∧ (e=.ok → Live f'.ptr (dataSlot k offs)) by
      refine ⟨hgoal.1,?_⟩
      intro he k' offs' heq
      obtain ⟨rfl,rfl⟩ := Prod.mk.inj (Option.some.inj heq)
      exact hgoal.2 he
    cases offs with
    | nil => exact ballocDirect_clean hf hlevel (hs'.imp_right (Or.imp_right fun h => ⟨h.1,h.2.1 rfl⟩)) hr
    | cons o rest =>
      dsimp only at hr
      rcases hs' with hlive | hs'
      · -- nothing is allocated
        have hroot : f.ptr [k]≠0 := (live_suffix (o::rest).reverse [k] hlive).1
        rw [if_pos hroot] at hr
        have hsame := ballocPath_live (g := g) fl ans (o::rest) [k] 1 hlive
        rw [Except.ok.inj hr] at hsame
        obtain rfl : f'=f := hsame
        exact ⟨Clean.refl hf,fun _ => hlive⟩
      have hinv : Inv g f f := Inv.refl hf (hs'.elim NoBlock.bounded fun h => h.1)
      have hw : WritesSucceed ans ∨ NoBlock f ∨
          fl.sync=false ∧ Live f.ptr ((o::rest).reverse++[k]).tail := by
        cases fails with
        | false => exact .inl (hans rfl)
        | true =>
          refine .inr (hs'.imp_right ?_)
          rintro ⟨-,-,h⟩
          exact ⟨(h rfl).2.resolve_left (List.cons_ne_nil o rest),(h rfl).1⟩
      by_cases h0 : f.ptr [k]=0
      · rw [if_neg (not_not.mpr h0)] at hr
        rcases ha : f.alloc (ans 0) g.blocksize with ⟨f1,r⟩
        rw [ha] at hr
        cases r with
        | none =>
          cases hr
          exact ⟨hinv.none ha,nofun⟩
        | some b =>
          have hwrite : WritesSucceed ans := by
            rcases hw with hw | hw | hw
            · exact hw
            · exact absurd ha (hw.alloc_none hf.window_used)
            · rw [List.tail_append_of_ne_nil (by simp)] at hw
              exact absurd h0 (live_suffix _ [k] hw.2).1
          dsimp only at hr
          rw [if_neg (by rw [(hwrite 0).1]; decide)] at hr
          obtain ⟨hinv',hlive⟩ := hinv.indirect (q := []) (by rw [hlevel]; rfl) trivial h0 ha
          exact ballocPath_clean (o::rest) [k] 1 hinv' hlevel hoffs hlive (.inl hwrite)
            (Except.ok.inj hr)
      · rw [if_pos h0] at hr
        exact ballocPath_clean (o::rest) [k] 1 hinv hlevel hoffs ⟨h0,trivial⟩ hw (Except.ok.inj hr)

theorem link_lost (f : File) {p : Slot} (b : ℕ) (hlink : a.link=false)
    (hdevice : ∀ o,a.device o=f.ptr (o::p.tail)) : (f.link true a p b).ptr=f.ptr := by
  rw [File.link,if_pos ⟨rfl,hlink⟩]
  funext q
  cases q with
  | nil => exact if_neg (by simp)
  | cons o q =>
    by_cases hq : q=p.tail
    · subst hq
      exact (if_pos ⟨rfl,List.cons_ne_nil o _⟩).trans (hdevice o)
    · exact if_neg fun h => hq h.1

/-- On every return `i_blocks` counts the blocks that can be reached, no block is lost and none is
free that is pointed to, with the pointer set on success, exactly if the file and the call are
`Secure`. -/
theorem balloc2_settled_iff (g : Geometry) (f : File) (hf : WellFormed g f) (fl : Flags)
    (fails : Bool) (bn size : ℕ) :
    (∀ ans,(fails=false → WritesSucceed ans) → Settled g f bn (f.balloc2 g fl ans bn size)) ↔
      Secure g f fails fl.sync bn size := by
  refine ⟨?_,fun hs ans => balloc2_clean hf hs⟩
  intro h k offs ht
  by_contra hn
  obtain ⟨hgap,hn⟩ := not_or.mp hn
  obtain ⟨hblock,hn⟩ := not_or.mp hn
  have hok (a : Answer) (hw : a.write=true) (hl : a.link=true) : fails=false → WritesSucceed (fun _ => a) :=
    fun _ _ => ⟨hw,hl⟩
  -- a block whose number is too large is lost
  have hbounded : Bounded f := by
    intro b hfree
    by_contra hlarge
    obtain ⟨f1,ha,hptr,hused,hwin⟩ :=
      alloc_large (a := pick f b) rfl rfl rfl (not_lt.mp hlarge) hfree
    have hr : f.balloc2 g fl _ bn size=_ := balloc2_refused rfl ht hgap ha
    exact not_clean_lost hf hfree hptr hused hwin (h _ (hok (pick f b) rfl rfl) _ _ hr).1
  obtain ⟨b,hb,hfree⟩ := exists_block hblock
  have hlt : b<2^31 := hbounded b hfree
  have hsize : offs=[] → btodb (f.nsize g k size)%2^32=btodb g.blocksize := by
    rintro rfl
    have h0 : f.ptr [k]=0 := by
      by_contra h0
      exact hgap ⟨h0,trivial⟩
    obtain ⟨f1,ha,hptr,hused,-,hblocks⟩ :=
      alloc_small (a := pick f b) rfl rfl rfl hb hlt hfree (f.nsize g k size)
    have ht' := (alloc_some hf.window_used ha).1
    have hr : f.balloc2 g fl _ bn size=_ := balloc2_direct ht h0 ha
    have hbal := (h _ (hok (pick f b) rfl rfl) _ _ hr).1.balanced
    have hreach (x : ℕ) : Reached g (f1.store [k] b) x ↔ Reached g f x ∨ x=b := by
      rw [reached_store (q := []) (by rw [(target_level ht).1]; rfl) trivial (hptr ▸ h0) hb
        (fun o' hs => absurd hs (no_slots_under (target_level ht).1)),reached_congr hptr]
    rw [sectors_insert (ht'.not_reached hf) hreach,← hf.blocks] at hbal
    exact (int32_add_inj (hblocks.symm.trans hbal)).trans (btodb_block g).2.2
  refine hn ⟨hbounded,hsize,?_⟩
  rintro rfl
  have htail : Live f.ptr (dataSlot k offs).tail := by
    by_contra htail
    obtain ⟨f1,ha,hptr,-,-,hblocks⟩ :=
      alloc_small (a := { pick f b with write := false }) rfl rfl rfl hb hlt hfree g.blocksize
    have hr : f.balloc2 g fl _ bn size=_ := balloc2_unwritten rfl rfl ht htail ha
    have hunclean : ¬Clean g f (f1.blkfree g b) := not_clean_counted hf hptr hblocks
    exact hunclean (h _ nofun _ _ hr).1
  refine ⟨htail,or_iff_not_imp_left.mpr ?_⟩
  intro hne
  by_contra hsync
  rw [Bool.not_eq_false] at hsync
  have h0 : f.ptr (dataSlot k offs)=0 := by
    by_contra h0
    cases hd : dataSlot k offs with
    | nil => exact hgap (hd ▸ trivial)
    | cons o q =>
      rw [hd] at hgap h0 htail
      exact hgap ⟨h0,htail⟩
  obtain ⟨f1,ha,hptr,hused,hwin,-⟩ :=
    alloc_small (a := { pick f b with link := false, device := fun o => f.ptr (o::(dataSlot k offs).tail) })
      rfl rfl rfl hb hlt hfree g.blocksize
  have hr : f.balloc2 g fl _ bn size=_ := balloc2_data rfl ht hne htail h0 ha
  rw [hsync] at hr
  have hsame := link_lost f1 (p := dataSlot k offs) b
    (a := { pick f b with link := false, device := fun o => f.ptr (o::(dataSlot k offs).tail) }) rfl
    (fun o => by rw [hptr])
  refine not_clean_lost hf hfree (hsame.trans hptr) ?_ ?_ (h _ nofun _ _ hr).1
  · rw [File.link,if_pos ⟨rfl,rfl⟩]
    exact hused
  · rw [File.link,if_pos ⟨rfl,rfl⟩]
    exact hwin b

def bare : File where
  ptr _ := 0
  size := 0
  blocks := 0
  regular := true
  preallocBlock := 0
  preallocCount := 0
  used x := x≠100

theorem bare_not_reached (g : Geometry) (b : ℕ) : ¬Reached g bare b := by
  rintro ⟨p,hp,hl,-⟩
  cases p with
  | nil => cases hp
  | cons o q => exact hl.1 rfl

theorem bare_wellFormed (g : Geometry) : WellFormed g bare where
  reached b hb := absurd hb (bare_not_reached g b)
  window b hb := absurd hb.2 (by simp [bare])
  blocks := by
    have hset : {b | Reached g bare b}=∅ := Set.eq_empty_of_forall_notMem (bare_not_reached g)
    rw [sectors,hset,Set.ncard_empty,Nat.zero_mul]
    rfl

theorem bare_bounded : Bounded bare := by
  intro b hb
  rcases hb with hb | hb
  · have : b=100 := by simpa [bare] using hb
    omega
  · exact absurd hb.2 (by simp [bare])

theorem balloc2_settled_bare : WellFormed Blocks.kilo bare ∧
    Secure Blocks.kilo bare false true 12 1024 ∧
    ∀ ans,WritesSucceed ans →
      Settled Blocks.kilo bare 12 (bare.balloc2 Blocks.kilo ⟨true,true,false⟩ ans 12 1024) := by
  have hsecure : Secure Blocks.kilo bare false true 12 1024 := by
    intro k offs ht
    refine .inr (.inr ⟨bare_bounded,?_,nofun⟩)
    rintro rfl
    cases ht
  refine ⟨bare_wellFormed _,hsecure,?_⟩
  intro ans hans
  exact (balloc2_settled_iff Blocks.kilo bare (bare_wellFormed _) ⟨true,true,false⟩ false 12 1024).mpr
    hsecure ans fun _ => hans

/-- The write of the new indirect block fails: the block is given back, its sectors are not. -/
theorem balloc2_unbalanced : WellFormed Blocks.kilo bare ∧
    ∃ f',bare.balloc2 Blocks.kilo ⟨false,true,false⟩ (fun _ => { pick bare 100 with write := false })
        12 1024=.ok (f',.eio) ∧
      f'.blocks=2 ∧ f'.used 100=false ∧ (¬∃ b,Reached Blocks.kilo f' b) ∧
      sectors Blocks.kilo f'=0 ∧ ¬Clean Blocks.kilo bare f' := by
  have hsectors : sectors Blocks.kilo bare=0 := (bare_wellFormed Blocks.kilo).blocks.symm
  refine ⟨bare_wellFormed _,_,rfl,rfl,rfl,?_,?_,?_⟩
  · rintro ⟨b,hb⟩
    exact bare_not_reached _ b ((reached_congr rfl b).mp hb)
  · exact (sectors_congr (reached_congr rfl)).trans hsectors
  · exact not_clean_counted (bare_wellFormed _) rfl rfl

end Ext2fsX.Growth
