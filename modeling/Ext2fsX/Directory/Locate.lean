import Ext2fsX.Directory.Search

namespace Ext2fsX.Directory

open Framework Record

variable {cfg : Config}

def locate (cfg : Config) (name : List UInt8) : ℕ → ℕ → List Record → Option (ℕ × ℕ × ℕ)
  | _,_,[] => none
  | o,prev,r::rs =>
    if r.hit name then some (o,if o%cfg.blocksize=0 then 0 else prev,r.recLen)
    else locate cfg name (o+r.recLen) r.recLen rs

structure FirstHit (name : List UInt8) (rs pre : List Record) (r : Record) (post : List Record) :
    Prop where
  split : rs=pre++r::post
  hit : r.hit name=true
  first : ∀ q∈pre,q.hit name=false

def lastLen (pre : List Record) : ℕ := total recLen pre-total recLen pre.dropLast

theorem lastLen_concat (pre : List Record) (p : Record) : lastLen (pre++[p])=p.recLen := by
  simp [lastLen]

variable {name : List UInt8}

variable {post pre xs ys : List Record} {r : Record} {o : ℕ}

theorem FirstHit.not_absent {rs : List Record}
    (h : FirstHit name rs pre r post) (habs : ∀ r∈rs,r.hit name=false) : False := by
  simpa [h.hit] using habs r (by simp [h.split])

theorem locate_eq (cfg : Config) {rs : List Record} (h : FirstHit name rs pre r post) (o prev : ℕ) :
    locate cfg name o prev rs=some (o+total recLen pre,
      if (o+total recLen pre)%cfg.blocksize=0 then 0
      else if pre=[] then prev else lastLen pre,r.recLen) := by
  obtain ⟨rfl,hit,first⟩ := h
  induction pre generalizing o prev with
  | nil => simp [locate,hit]
  | cons q pre ih =>
    have hq := first q (by simp)
    have hrest : ∀ p∈pre,p.hit name=false := fun p hp => first p (List.mem_cons_of_mem q hp)
    simp only [List.cons_append,locate,hq,Bool.false_eq_true,if_false,total_cons]
    rw [ih (o+q.recLen) q.recLen hrest,Nat.add_assoc]
    congr 3
    by_cases hp : pre=[]
    · subst hp
      simp [lastLen]
    · simp only [hp,reduceCtorEq,if_false]
      unfold lastLen
      rw [List.dropLast_cons_of_ne_nil hp,total_cons,total_cons,Nat.add_sub_add_left]

variable {rs : List Record}

theorem firstHit_of_locate {prev : ℕ} {x : ℕ × ℕ × ℕ} (h : locate cfg name o prev rs=some x) :
    ∃ pre r post,FirstHit name rs pre r post := by
  induction rs generalizing o prev with
  | nil => simp [locate] at h
  | cons q rs ih =>
    simp only [locate] at h
    split at h
    · rename_i hq
      exact ⟨[],q,rs,rfl,hq,by simp⟩
    rename_i hq
    obtain ⟨pre,r,post,hs,hr,hp⟩ := ih h
    refine ⟨q::pre,r,post,by rw [hs]; rfl,hr,?_⟩
    intro p hm
    rcases List.mem_cons.mp hm with rfl | hm
    · simpa using hq
    · exact hp p hm

/-- What `i_offset`, `i_count` and `i_reclen` should say about an entry to be removed. -/
structure Located (cfg : Config) (rs pre : List Record) (r : Record) (post : List Record)
    (name : List UInt8) (o c l : ℕ) : Prop where
  hit : FirstHit name rs pre r post
  offset : o=total recLen pre
  count : c=if o%cfg.blocksize=0 then 0 else lastLen pre
  reclen : c≠0 → l=r.recLen

def locates (cfg : Config) (name : List UInt8) (rs : List Record) (o c l : ℕ) : Bool :=
  match locate cfg name 0 0 rs with
  | none => false
  | some (o',c',l') => decide (o=o' ∧ c=c' ∧ (c≠0 → l=l'))

theorem FirstHit.locate {rs : List Record} (h : FirstHit name rs pre r post) (cfg : Config) :
    locate cfg name 0 0 rs=some (total recLen pre,
      if total recLen pre%cfg.blocksize=0 then 0 else lastLen pre,r.recLen) := by
  rw [locate_eq cfg h 0 0,Nat.zero_add]
  by_cases hp : pre=[]
  · subst hp
    simp
  · simp [hp]

theorem locates_iff {c l : ℕ} :
    locates cfg name rs o c l=true ↔ ∃ pre r post,Located cfg rs pre r post name o c l := by
  constructor
  · intro h
    unfold locates at h
    cases hl : locate cfg name 0 0 rs with
    | none => simp [hl] at h
    | some x =>
      obtain ⟨pre,r,post,hf⟩ := firstHit_of_locate hl
      rw [hf.locate cfg] at h
      simp only [decide_eq_true_eq] at h
      obtain ⟨rfl,hc,hr⟩ := h
      exact ⟨pre,r,post,hf,rfl,hc,hr⟩
  · rintro ⟨pre,r,post,hf,rfl,hc,hr⟩
    unfold locates
    rw [hf.locate cfg]
    simp only [decide_eq_true_eq]
    exact ⟨trivial,hc,hr⟩

theorem Config.roundup_of_dvd {x : ℕ} (h : cfg.blocksize ∣ x) : cfg.roundup x=x := by
  obtain ⟨c,rfl⟩ := h
  have hb := cfg.blocksize_bounds
  unfold Config.roundup
  rw [show cfg.blocksize*c+cfg.blocksize-1=cfg.blocksize-1+cfg.blocksize*c by omega,
    Nat.add_mul_div_left _ _ (by omega),Nat.div_eq_of_lt (by omega),Nat.zero_add,Nat.mul_comm]

theorem Config.le_roundup (x : ℕ) : x ≤ cfg.roundup x ∧ cfg.blocksize ∣ cfg.roundup x := by
  have hb := cfg.blocksize_bounds
  refine ⟨?_,Nat.dvd_mul_left _ _⟩
  unfold Config.roundup
  have := Nat.div_add_mod (x+cfg.blocksize-1) cfg.blocksize
  have := Nat.mod_lt (x+cfg.blocksize-1) (show 0 < cfg.blocksize by omega)
  rw [Nat.mul_comm]
  omega

theorem Config.roundup_le {x y : ℕ} (h : x≤y) (hy : cfg.blocksize ∣ y) : cfg.roundup x≤y := by
  have hr := cfg.roundup_of_dvd hy
  rw [← hr]
  exact Nat.mul_le_mul_right _ (Nat.div_le_div_right (by omega))

/-- A search stays on the records: it does not stop, and what it finds is one of them. -/
def OnRecords (cfg : Config) (m : Bytes) (size : ℕ) : Searched → Prop
  | .found s => Record.Ok cfg s.offset (readRecord m s.offset) ∧
      s.entryoffsetinblock=s.offset%cfg.blocksize ∧
      s.offset+(readRecord m s.offset).recLen ≤ size
  | .stop _ => False
  | _ => True

variable {s : Search}

theorem searchList_onRecords {m : Bytes} (bad : List ℕ) (name : List UInt8) {size : ℕ}
    (h : Tiles recLen (readRecord m) (Record.Ok cfg) s.offset rs)
    (hs : s.offset+total recLen rs ≤ size) :
    OnRecords cfg m size (searchList cfg bad name rs s) := by
  induction rs generalizing s with
  | nil => trivial
  | cons r rs ih =>
    obtain ⟨h1,h2,h3⟩ := h
    rw [total_cons] at hs
    simp only [searchList]
    split
    · trivial
    split
    · refine ⟨h1 ▸ h2,rfl,?_⟩
      change s.offset+(readRecord m s.offset).recLen ≤ size
      rw [h1]
      omega
    · apply ih h3
      simp only [Search.after]
      omega

variable {d : Dir}

theorem Layout.length_le (h : Layout cfg d rs) : rs.length≤d.size := by
  rw [← h.size_eq]
  exact h.tiles.length_le (fun _ _ hr => hr.pos)

variable {op : NameiOp}

/-- The records before `endsearch`, of those from some offset on. -/
def Dir.seen (d : Dir) (rs : List Record) : List Record := if d.size<2147483648 then rs else []

theorem Dir.seen_small {d : Dir} (hd : d.size<2147483648) : d.seen rs=rs := if_pos hd

/-- A search that goes up to the end of the directory, where `(doff_t)i_size` is not negative. -/
theorem Layout.searchloop_end (h : Layout cfg d (xs++ys)) (name : List UInt8)
    (bad : List ℕ) {s : Search} (hs : s.offset=total recLen xs)
    (hmod : s.offset%cfg.blocksize=0) :
    searchloop cfg d.data bad name (doff d.size) (doff d.size) s=
      searchList cfg bad name (d.seen ys) s := by
  have ht := (tiles_append 0 xs ys).mp h.tiles
  have htotal := h.size_eq
  have hlen := h.length_le
  rw [total_append] at htotal
  rw [List.length_append] at hlen
  rw [Nat.zero_add,← hs] at ht
  by_cases hsmall : d.size<2147483648
  · rw [doff,Dir.seen,if_pos hsmall,if_pos hsmall]
    exact searchloop_eq ht.2 (fun hne => absurd hmod hne) (by omega) hsmall (by omega)
  · rw [doff,Dir.seen,if_neg hsmall,if_neg hsmall]
    rfl

/-- A search from the start of the directory. -/
def Search.start (op : NameiOp) (name : List UInt8) : Search :=
  ⟨0,0,0,0,if op.wantsSlot then ⟨.none,none,0,0,dirRecLen name.length⟩ else ⟨.found,none,0,0,0⟩⟩

theorem Layout.search_eq (h : Layout cfg d rs) (name : List UInt8) (bad : List ℕ)
    (hop : op≠.lookup ∨ d.restarts) :
    d.search cfg op name bad=searchList cfg bad name (d.seen rs) (.start op name) := by
  have hs : d.searchStart cfg op name=(.start op name,false) := if_pos hop
  unfold Dir.search Search.start at *
  rw [hs]
  simp only [ne_eq,not_true_eq_false,false_and,if_false]
  have h0 : Layout cfg d ([]++rs) := h
  rw [cfg.roundup_of_dvd h.blocks,h0.searchloop_end name bad rfl (Nat.zero_mod _)]
  cases searchList cfg bad name (d.seen rs) _ <;> rfl

theorem Layout.search_twice (h : Layout cfg d rs) (hd : cfg.blocksize ∣ d.diroff)
    (name : List UInt8) (bad : List ℕ) (hop : ¬(op≠.lookup ∨ d.restarts)) :
    ∃ xs ys s,rs=xs++ys ∧ total recLen xs=d.diroff ∧ s.offset=d.diroff ∧
      d.search cfg op name bad=match searchList cfg bad name (d.seen ys) s with
        | .notfound s => searchList cfg bad name xs { s with offset := 0 }
        | r => r := by
  have hle : d.diroff≤d.size ∧ d.diroff<2147483648 := by
    unfold Dir.restarts at hop
    omega
  obtain ⟨xs,ys,rfl,hx⟩ := h.tiles.split (fun _ _ hr => hr.block) hd (Nat.zero_le _)
    (by rw [h.size_eq]; omega)
  rw [Nat.zero_add] at hx
  have ht := (tiles_append 0 xs ys).mp h.tiles
  have hmod := Nat.mod_eq_zero_of_dvd hd
  have hsecond (s : Search) (hs : s.offset=0) :
      searchloop cfg d.data bad name d.diroff d.diroff s=searchList cfg bad name xs s := by
    apply searchloop_eq
    · rw [hs]
      exact ht.1
    · intro hne
      rw [hs] at hne
      exact absurd (Nat.zero_mod _) hne
    · omega
    · exact hle.2
    · have := ht.1.length_le (fun _ _ hr => hr.pos)
      omega
  refine ⟨xs,ys,(d.searchStart cfg op name).1,rfl,hx,?_,?_⟩
  · unfold Dir.searchStart
    rw [if_neg hop]
  unfold Dir.search Dir.searchStart
  rw [if_neg hop]
  simp only [hmod,ne_eq,not_true_eq_false,false_and,if_false,if_true]
  rw [cfg.roundup_of_dvd h.blocks,h.searchloop_end name bad hx.symm hmod]
  cases searchList cfg bad name (d.seen ys) _ with
  | notfound s => exact hsecond _ rfl
  | _ => rfl

theorem seen_onRecords (bad : List ℕ) (name : List UInt8) {s : Search}
    (ht : Tiles recLen (readRecord d.data) (Record.Ok cfg) s.offset rs)
    (hs : s.offset+total recLen rs ≤ d.size) :
    OnRecords cfg d.data d.size (searchList cfg bad name (d.seen rs) s) := by
  unfold Dir.seen
  split
  · exact searchList_onRecords bad name ht hs
  · trivial

theorem Layout.search_onRecords (h : Layout cfg d rs) (hd : cfg.blocksize ∣ d.diroff) (op : NameiOp)
    (name : List UInt8) (bad : List ℕ) :
    OnRecords cfg d.data d.size (d.search cfg op name bad) := by
  by_cases hop : op≠.lookup ∨ d.restarts
  · rw [h.search_eq name bad hop,Search.start]
    exact seen_onRecords bad name h.tiles (by rw [h.size_eq]; simp)
  obtain ⟨xs,ys,s,rfl,hx,hs,hsearch⟩ := h.search_twice hd name bad hop
  have ht := (tiles_append 0 xs ys).mp h.tiles
  have htotal := h.size_eq
  rw [Nat.zero_add,hx] at ht
  rw [total_append,hx] at htotal
  have hon : OnRecords cfg d.data d.size (searchList cfg bad name (d.seen ys) s) :=
    seen_onRecords bad name (hs ▸ ht.2) (by omega)
  rw [hsearch]
  revert hon
  cases searchList cfg bad name (d.seen ys) s with
  | notfound s =>
    intro _
    exact searchList_onRecords bad name ht.1 (by dsimp only; omega)
  | _ => exact id

/-- What no lookup changes. -/
structure Looked (cfg : Config) (d d' : Dir) : Prop where
  data : d'.data=d.data
  size : d'.size=d.size
  nlink : d'.nlink=d.nlink
  number : d'.number=d.number
  dcache : d'.dcache=d.dcache
  diroff : cfg.blocksize ∣ d.diroff → cfg.blocksize ∣ d'.diroff

theorem Looked.ofOp {d' : Dir} (h : Looked cfg { d with lastnamei := op } d') : Looked cfg d d' :=
  ⟨h.data,h.size,h.nlink,h.number,h.dcache,h.diroff⟩

theorem Dir.notfound_looked (cfg : Config) (d : Dir) (op : NameiOp) (env : Env) (s : Search) :
    Looked cfg d (d.notfound cfg op env s).1 := by
  unfold Dir.notfound
  dsimp only
  repeat' split
  all_goals exact ⟨rfl,rfl,rfl,rfl,rfl,id⟩

theorem Dir.notfound_lastnamei (cfg : Config) (d : Dir) (op : NameiOp) (env : Env) (s : Search) :
    (d.notfound cfg op env s).1.lastnamei=d.lastnamei := by
  unfold Dir.notfound
  dsimp only
  repeat' split
  all_goals rfl

/-- What a search that has found the name at `s` leaves behind. -/
structure FoundBy (cfg : Config) (op : NameiOp) (s : Search) (d d' : Dir) (e : Errno) : Prop where
  looked : Looked cfg d d'
  offset : d'.offset=s.offset
  ino : d'.ino=(readRecord d.data s.offset).inode
  reclen : d'.reclen=(readRecord d.data s.offset).recLen
  lastnamei : d'.lastnamei=d.lastnamei
  count : op=.delete → e=.ok →
    d'.count=if s.offset%cfg.blocksize=0 then 0 else s.offset-s.prevoff
  errno : e≠.ejustreturn

theorem Dir.found_ok (d : Dir) (op : NameiOp) (vpp : Bool) (env : Env)
    (h : OnRecords cfg d.data d.size (.found s)) :
    ∃ d' e,d.found cfg op vpp env s=.ok (d',e) ∧ FoundBy cfg op s d d' e := by
  obtain ⟨h1,h2,h3⟩ := h
  have hfit := h1.fits
  have hmod := Nat.mod_le s.offset cfg.blocksize
  have hneed : ¬d.size < s.entryoffsetinblock+dirRecLen (readRecord d.data s.offset).name.length := by
    omega
  have hoff : cfg.blocksize ∣ s.offset-s.offset%cfg.blocksize := Nat.dvd_sub_mod s.offset
  unfold Dir.found
  simp only [hneed,false_and,if_false]
  cases op with
  | lookup =>
    dsimp only
    split <;> exact ⟨_,_,rfl,⟨rfl,rfl,rfl,rfl,rfl,fun _ => hoff⟩,rfl,rfl,rfl,rfl,by simp,by simp⟩
  | create | rename =>
    simp only [reduceCtorEq,if_false]
    repeat' split
    all_goals exact ⟨_,_,rfl,⟨rfl,rfl,rfl,rfl,rfl,id⟩,rfl,rfl,rfl,rfl,by simp,by simp⟩
  | delete =>
    dsimp only
    split
    · exact ⟨_,_,rfl,⟨rfl,rfl,rfl,rfl,rfl,id⟩,rfl,rfl,rfl,rfl,by simp,by simp⟩
    · split
      · exact ⟨_,_,rfl,⟨rfl,rfl,rfl,rfl,rfl,id⟩,rfl,rfl,rfl,rfl,fun _ _ => rfl,by simp⟩
      · split <;>
          exact ⟨_,_,rfl,⟨rfl,rfl,rfl,rfl,rfl,id⟩,rfl,rfl,rfl,rfl,fun _ _ => rfl,by simp⟩

theorem Dir.found_errno {d d' : Dir} {vpp : Bool} {env : Env} {e : Errno}
    (h : d.found cfg .delete vpp env s=.ok (d',e)) (ha : env.authorized=true) (hv : env.vget=true) : e=.ok := by
  unfold Dir.found at h
  dsimp only at h
  split at h
  · cases h
  · rw [ha,hv] at h
    simp only [Bool.not_true,Bool.and_false,Bool.false_eq_true,if_false,ite_self] at h
    exact (Prod.mk.inj (Except.ok.inj h)).2.symm

def DeadFrom (rs : List Record) (o : ℕ) : Prop :=
  ∃ xs ys,rs=xs++ys ∧ total recLen xs=o ∧ ∀ r∈ys,r.live=false

theorem Layout.split_le {us vs : List Record} (h : Layout cfg d (us++vs)) (he : us++vs=xs++ys)
    (hle : total recLen us≤total recLen xs) :
    ∃ zs,xs=us++zs ∧ vs=zs++ys := by
  rcases List.append_eq_append_iff.mp he with ⟨zs,h1,h2⟩ | ⟨zs,rfl,rfl⟩
  · exact ⟨zs,h1,h2⟩
  -- the second cut comes no later than the first, so nothing lies between them
  have htiles := (tiles_append 0 _ vs).mp h.tiles
  have hlen := ((tiles_append 0 xs zs).mp htiles.1).2.length_le (fun _ _ hr => hr.pos)
  rw [total_append] at hle
  have hnil : zs=[] := List.length_eq_zero_iff.mp (by omega)
  subst hnil
  exact ⟨[],by simp,by simp⟩

theorem Layout.split_eq {us vs : List Record} (h : Layout cfg d (us++vs))
    (he : us++vs=xs++ys) (ht : total recLen us=total recLen xs) :
    us=xs ∧ vs=ys := by
  obtain ⟨zs,h1,h2⟩ := h.split_le he (Nat.le_of_eq ht)
  obtain ⟨ws,h3,-⟩ := (he ▸ h).split_le he.symm (Nat.le_of_eq ht.symm)
  have hlen := congrArg List.length h1
  have hlen' := congrArg List.length h3
  rw [List.length_append] at hlen hlen'
  have hnil : zs=[] := List.length_eq_zero_iff.mp (by omega)
  subst hnil
  exact ⟨by simpa using h1.symm,by simpa using h2⟩

theorem Layout.deadFrom_mono (h : Layout cfg d rs) {e : ℕ} (ho : DeadFrom rs o) (hoe : o≤e)
    (he : cfg.blocksize ∣ e) (hs : e≤d.size) : DeadFrom rs e := by
  obtain ⟨us,vs,rfl,hu,hdead⟩ := ho
  obtain ⟨xs,ys,hsplit,hx⟩ := h.tiles.split (fun _ _ hr => hr.block) he (Nat.zero_le _)
    (by rw [h.size_eq]; omega)
  rw [Nat.zero_add] at hx
  obtain ⟨zs,rfl,rfl⟩ := h.split_le hsplit (by omega)
  refine ⟨us++zs,ys,hsplit,hx,?_⟩
  intro r hr
  exact hdead r (List.mem_append_right zs hr)

/-- The slot can take an entry of `need` bytes, and `i_endoff` cuts off nothing live. -/
structure Usable (cfg : Config) (rs : List Record) (need : ℕ) (d : Dir) : Prop where
  slot : ∃ before run behind,SlotAt cfg rs need d.offset d.count before run behind
  tail : d.endoff≠0 → d.endoff<d.size →
    cfg.blocksize ∣ d.endoff ∧ d.offset+d.count≤d.endoff ∧ DeadFrom rs d.endoff

def NewSlot (cfg : Config) (rs : List Record) (need : ℕ) (d : Dir) : Prop :=
  (d.count=0 ∧ d.offset=d.size) ∨ Usable cfg rs need d

theorem Layout.notfound_slot (h : Layout cfg d rs) {env : Env} {need : ℕ}
    (hs : SearchInv cfg (op.wantsSlot=true) need rs s) {d' : Dir} {e : Errno}
    (he : d.notfound cfg op env s=(d',e)) :
    e≠.ok ∧ (e=.ejustreturn → op.wantsSlot=true ∧ NewSlot cfg rs need d') := by
  unfold Dir.notfound at he
  dsimp only at he
  split at he
  · rename_i hw
    have hslot := hs.slot hw.1
    split at he
    · have slot (o : ℕ) (hne : s.slot.status≠.none) (ho : s.slot.offset=some o) (hd : ({ d with
            offset := o, count := s.slot.size
            endoff := cfg.roundup (max s.enduseful (o+s.slot.size)) },Errno.ejustreturn)=(d',e)) :
          e≠.ok ∧ (e=.ejustreturn → op.wantsSlot=true ∧ NewSlot cfg rs need d') := by
        obtain ⟨o',before,run,behind,ho',hat⟩ := hslot.slot hne
        rw [ho] at ho'
        obtain rfl := Option.some.inj ho'
        obtain ⟨rfl,rfl⟩ := Prod.mk.inj hd
        refine ⟨by simp,fun _ => ⟨hw.1,.inr ⟨⟨before,run,behind,hat⟩,fun _ _ => ⟨?_,?_,?_⟩⟩⟩⟩
        · exact (cfg.le_roundup _).2
        · exact Nat.le_trans (Nat.le_max_right _ _) (cfg.le_roundup _).1
        obtain ⟨xs,ys,hxy,hx,hdead⟩ := hs.useful
        have hle : max s.enduseful (o+s.slot.size)≤d.size := by
          have h1 := congrArg (total recLen) hxy
          have h2 := congrArg (total recLen) hat.split
          rw [total_append,h.size_eq] at h1
          rw [total_append,total_append,h.size_eq,hat.start,hat.length] at h2
          omega
        refine h.deadFrom_mono ⟨xs,ys,hxy,rfl,hdead⟩ ?_ (cfg.le_roundup _).2
          (cfg.roundup_le hle h.blocks)
        rw [hx]
        exact Nat.le_trans (Nat.le_max_left _ _) (cfg.le_roundup _).1
      split at he
      · rename_i hst ho
        exact slot _ (by simp [hst]) ho he
      · rename_i hst ho
        exact slot _ (by simp [hst]) ho he
      · obtain ⟨rfl,rfl⟩ := Prod.mk.inj he
        refine ⟨by simp,fun _ => ⟨hw.1,.inl ⟨rfl,?_⟩⟩⟩
        exact cfg.roundup_of_dvd h.blocks
    · obtain ⟨rfl,rfl⟩ := Prod.mk.inj he
      exact ⟨by simp,by simp⟩
  · obtain ⟨rfl,rfl⟩ := Prod.mk.inj he
    exact ⟨by simp,by simp⟩

theorem Dir.notfound_errno (cfg : Config) (d : Dir) (op : NameiOp) (env : Env) (s : Search)
    (hop : op.wantsSlot=true) (hn : d.nlink≠0) (ha : env.authorized=true) :
    (d.notfound cfg op env s).2=.ejustreturn := by
  unfold Dir.notfound
  simp only [hop,ne_eq,hn,not_false_eq_true,and_self,ha,if_true]
  split <;> rfl

inductive Outcome (cfg : Config) (rs : List Record) (op : NameiOp) (name : List UInt8) (env : Env)
    (d' : Dir) (e : Errno) : Prop
  | found (pre : List Record) (r : Record) (post : List Record) :
      FirstHit name rs pre r post → d'.offset=total recLen pre → d'.ino=r.inode →
      d'.reclen=r.recLen →
      (op=.delete → e=.ok → Located cfg rs pre r post name d'.offset d'.count d'.reclen) →
      e≠.ejustreturn → (op=.delete → env.authorized=true → env.vget=true → e=.ok) →
      Outcome cfg rs op name env d' e
  | absent : (∀ r∈rs,r.hit name=false) → e≠.ok →
      (e=.ejustreturn → op.wantsSlot=true ∧ NewSlot cfg rs (dirRecLen name.length) d') →
      (op.wantsSlot=true → d'.nlink≠0 → env.authorized=true → e=.ejustreturn) →
      Outcome cfg rs op name env d' e
  | big : 2147483648 ≤ d'.size → e≠.ok → (e=.ejustreturn → d'.count=0 ∧ d'.offset=d'.size) →
      Outcome cfg rs op name env d' e
  | unread : e=.eio → env.bad≠[] → Outcome cfg rs op name env d' e

theorem searchList_unread {s s' : Search} : searchList cfg [] name rs s≠.unread s' := by
  induction rs generalizing s with
  | nil => simp [searchList]
  | cons r rs ih =>
    simp only [searchList,List.not_mem_nil,and_false,if_false]
    split
    · simp
    · exact ih

theorem slotInv_start (need : ℕ) : SlotInv cfg need [] ⟨.none,none,0,0,need⟩ :=
  ⟨rfl,fun h => absurd rfl h,fun _ => .inl (Nat.zero_mod _)⟩

/-- From 2^31 bytes on the search has no round: the name is not found, and no slot either. -/
theorem Layout.lookupi_big (h : Layout cfg d rs) (hbig : 2147483648 ≤ d.size) (hop : op≠.lookup)
    (name : Name) (vpp : Bool) (env : Env) :
    ∃ d' e,d.lookupi cfg op name vpp env=.ok (d',e) ∧ Looked cfg d d' ∧ d'.lastnamei=op ∧
      e≠.ok ∧ (e=.ejustreturn → d'.count=0 ∧ d'.offset=d'.size) := by
  have h0 : Layout cfg { d with lastnamei := op } rs := ⟨h.tiles,h.size_eq,h.blocks⟩
  have hon := h0.search_eq name.bytes env.bad (.inl hop)
  have hseen : Dir.seen { d with lastnamei := op } rs=[] := if_neg (Nat.not_lt.mpr hbig)
  rw [hseen,searchList] at hon
  refine ⟨_,_,by unfold Dir.lookupi; dsimp only; rw [hon],(Dir.notfound_looked cfg _ op env _).ofOp,
    Dir.notfound_lastnamei cfg _ op env _,?_⟩
  unfold Dir.notfound Search.start
  dsimp only
  split
  · rename_i hw
    split
    · rw [if_pos hw.1]
      exact ⟨by simp,fun _ => ⟨rfl,cfg.roundup_of_dvd h.blocks⟩⟩
    · exact ⟨by simp,by simp⟩
  · exact ⟨by simp,by simp⟩

theorem Layout.lookupi_outcome (h : Layout cfg d rs) (hop : op≠.lookup) (name : Name) (vpp : Bool)
    (env : Env) :
    ∃ d' e,d.lookupi cfg op name vpp env=.ok (d',e) ∧ Looked cfg d d' ∧ d'.lastnamei=op ∧
      Outcome cfg rs op name.bytes env d' e := by
  by_cases hsmall : d.size<2147483648
  swap
  · obtain ⟨d',e,hl,hlook,hln,hne,hslot⟩ := h.lookupi_big (Nat.not_lt.mp hsmall) hop name vpp env
    exact ⟨d',e,hl,hlook,hln,.big (hlook.size ▸ Nat.not_lt.mp hsmall) hne hslot⟩
  have h0 : Layout cfg { d with lastnamei := op } rs := ⟨h.tiles,h.size_eq,h.blocks⟩
  have hon := h0.search_eq name.bytes env.bad (.inl hop)
  rw [Dir.seen_small (d := { d with lastnamei := op }) hsmall] at hon
  have hinv : SearchInv cfg (op.wantsSlot=true) (dirRecLen name.bytes.length) []
      (.start op name.bytes) := by
    refine ⟨rfl,fun hne => absurd (Nat.zero_mod _) hne,rfl,⟨[],[],rfl,rfl,by simp⟩,fun hw => ?_⟩
    rw [Search.start,if_pos hw]
    exact slotInv_start _
  have hends := searchList_ends env.bad name.bytes hinv h.tiles (by simp)
  rw [List.nil_append] at hends
  have hrec : OnRecords cfg d.data d.size
      (searchList cfg env.bad name.bytes rs (.start op name.bytes)) :=
    searchList_onRecords env.bad name.bytes h.tiles (by rw [h.size_eq]; simp [Search.start])
  rw [← hon] at hends hrec
  unfold Dir.lookupi
  dsimp only
  cases hs : Dir.search cfg { d with lastnamei := op } op name.bytes env.bad with
  | stop x =>
    rw [hs] at hends
    exact hends.elim
  | unread s =>
    refine ⟨_,_,rfl,⟨rfl,rfl,rfl,rfl,rfl,id⟩,rfl,.unread rfl ?_⟩
    intro hb
    rw [hb] at hon hs
    exact searchList_unread (hon.symm.trans hs)
  | notfound s =>
    rw [hs] at hends
    obtain ⟨hno,hsinv⟩ := hends
    have hl := Dir.notfound_looked cfg { d with lastnamei := op } op env s
    have herr := Dir.notfound_errno cfg { d with lastnamei := op } op env s
    have hln := Dir.notfound_lastnamei cfg { d with lastnamei := op } op env s
    cases hn : Dir.notfound cfg { d with lastnamei := op } op env s with
    | mk d' e =>
      rw [hn] at hl herr hln
      obtain ⟨hok,hslot⟩ := h0.notfound_slot hsinv hn
      refine ⟨d',e,congrArg Except.ok hn,hl.ofOp,hln,.absent hno hok hslot ?_⟩
      intro hw hnl
      exact herr hw (hl.nlink ▸ hnl)
  | found s =>
    rw [hs] at hends hrec
    obtain ⟨pre,r,post,hsplit,hit,hfirst,ho,hp,-⟩ := hends
    obtain ⟨d',e,hf,hby⟩ := Dir.found_ok { d with lastnamei := op } op vpp env hrec
    have hr : readRecord d.data s.offset=r := by
      have ht := h.tiles
      rw [hsplit,tiles_append,Nat.zero_add] at ht
      rw [ho]
      exact ht.2.1
    refine ⟨d',e,hf,hby.looked.ofOp,hby.lastnamei,
      .found pre r post ⟨hsplit,hit,hfirst⟩ (hby.offset.trans ho) (hr ▸ hby.ino) (hr ▸ hby.reclen)
        ?_ hby.errno ?_⟩
    swap
    · rintro rfl
      exact Dir.found_errno hf
    intro hdel hok
    refine ⟨⟨hsplit,hit,hfirst⟩,hby.offset.trans ho,?_,fun _ => hr ▸ hby.reclen⟩
    rw [hby.count hdel hok,hby.offset,hp,ho]
    rfl

theorem Layout.lookupi_looked (h : Layout cfg d rs) (hd : cfg.blocksize ∣ d.diroff) (op : NameiOp)
    (name : Name) (vpp : Bool) (env : Env) :
    ∃ d' e,d.lookupi cfg op name vpp env=.ok (d',e) ∧ Looked cfg d d' := by
  have h0 : Layout cfg { d with lastnamei := op } rs := ⟨h.tiles,h.size_eq,h.blocks⟩
  have hon := h0.search_onRecords hd op name.bytes env.bad
  unfold Dir.lookupi
  dsimp only
  cases hs : Dir.search cfg { d with lastnamei := op } op name.bytes env.bad with
  | stop x =>
    rw [hs] at hon
    exact hon.elim
  | unread s => exact ⟨_,_,rfl,rfl,rfl,rfl,rfl,rfl,id⟩
  | notfound s => exact ⟨_,_,rfl,(Dir.notfound_looked cfg _ op env s).ofOp⟩
  | found s =>
    rw [hs] at hon
    obtain ⟨d',e,hf,hby⟩ := Dir.found_ok { d with lastnamei := op } op vpp env hon
    exact ⟨d',e,hf,hby.looked.ofOp⟩

end Ext2fsX.Directory
