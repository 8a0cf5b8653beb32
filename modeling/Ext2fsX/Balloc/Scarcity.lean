import Ext2fsX.Balloc.NewBlock

namespace Ext2fsX.Balloc

open Framework

def Full (g : Geometry) (a : Alloc) : Prop := ∀ i<g.groupsCount,a.bgFree i=0

instance (g : Geometry) (a : Alloc) : Decidable (Full g a) :=
  inferInstanceAs (Decidable (∀ i<g.groupsCount,a.bgFree i=0))

/-- Of a caller's last call: whether at some moment no group had a free block, and whether it
returned 0. -/
structure Call where
  dry : Bool
  zero : Bool

variable {τ : Type} [DecidableEq τ]

def Act.begins : Act τ → Option τ
  | .newBlock t _ _ => some t
  | .freeBlocks t _ _ => some t
  | _ => none

def Act.resumes : Act τ → Option τ
  | .resume t => some t
  | _ => none

def Got.endsZero (g : Geometry) (a : Alloc) (goal : ℕ) : Got → Bool
  | .lost _ => true
  | .again => newBlockStart g a goal=.full
  | _ => false

/-- Whether the region that the step runs leads to a `return 0` of `ext2_new_block`. -/
def State.endsZero (g : Geometry) (s : State τ) : Act τ → Bool
  | .newBlock _ goal _ => newBlockStart g s.fs goal=.full
  | .resume t =>
    match s.pc t with
    | .locked i (.goal goal pre j) =>
      match goalSearch g.blocksPerGroup (s.fs.bitmap i) j with
      | some k => (gotBlock g s.fs pre i k).endsZero g s.fs goal
      | none => nextGroup g s.fs g.groupsCount i=.full
    | .locked i (.scan goal pre) =>
      match scanSearch g.blocksPerGroup (s.fs.bitmap i) with
      | some k => (gotBlock g s.fs pre i k).endsZero g s.fs goal
      | none => true
    | _ => false
  | _ => false

/-- The moments of a call are the states from the one it begins in to the one it returns in. -/
def note (g : Geometry) (x : Act τ) (s s' : State τ) (h : τ → Call) : τ → Call := fun u =>
  if x.begins=some u then
    { dry := decide (Full g s.fs) || decide (Full g s'.fs), zero := s.endsZero g x }
  else if s.pc u=.idle then h u
  else
    { dry := (h u).dry || decide (Full g s.fs) || decide (Full g s'.fs)
      zero := if x.resumes=some u then s.endsZero g x else (h u).zero }

def watchedMachine (g : Geometry) (τ : Type) [DecidableEq τ] :
    Machine (State τ × (τ → Call)) (Act τ) :=
  (ballocMachine g τ).watch (fun _ => { dry := false, zero := false }) (note g)

/-- Every call that returned 0 had a moment at which no group had a free block. -/
def Honest (p : State τ × (τ → Call)) : Prop :=
  ∀ t,p.1.pc t=.idle → (p.2 t).zero=true → (p.2 t).dry=true

/-- A caller that gets the lock back: its group still has a free block, or no group has one. -/
def Pc.StillFree (g : Geometry) (a : Alloc) : Pc → Prop
  | .locked i (.scan _ _) => 0<a.bgFree i ∨ Full g a
  | _ => True

instance (g : Geometry) (a : Alloc) : (q : Pc) → Decidable (q.StillFree g a)
  | .locked i (.scan _ _) => inferInstanceAs (Decidable (0<a.bgFree i ∨ Full g a))
  | .locked _ (.goal _ _ _) => .isTrue trivial
  | .locked _ (.free _ _ _) => .isTrue trivial
  | .idle => .isTrue trivial
  | .read _ _ => .isTrue trivial
  | .write _ => .isTrue trivial

def StillFree (g : Geometry) (p : State τ × (τ → Call)) : Act τ → Prop
  | .resume t => (p.1.pc t).StillFree g p.1.fs
  | _ => True

instance (g : Geometry) (p : State τ × (τ → Call)) : (x : Act τ) → Decidable (StillFree g p x)
  | .resume t => inferInstanceAs (Decidable ((p.1.pc t).StillFree g p.1.fs))
  | .newBlock _ _ _ => .isTrue trivial
  | .freeBlocks _ _ _ => .isTrue trivial
  | .bread _ => .isTrue trivial
  | .bwrite _ => .isTrue trivial
  | .give _ _ _ => .isTrue trivial

namespace Sound

variable {g : Geometry} {s : State τ}

omit [DecidableEq τ] in
theorem got_nonzero (h : Sound g s) (goal : ℕ) (pre : Bool) {i k : ℕ} (hi : i<g.groupsCount)
    (hk : k<g.blocksPerGroup) (hc : s.fs.bitmap i k=false) :
    (gotBlock g s.fs pre i k).endsZero g s.fs goal=false := by
  rcases gotBlock_cases g s.fs pre i k h.consistent.accounted h.consistent.tail hi hk hc with
    hp | ⟨a,n,hgot,-⟩
  · rw [hp]
    rfl
  · rw [hgot]
    rfl

omit [DecidableEq τ] in
theorem scan_none_iff (h : Sound g s) {i : ℕ} (hi : i<g.groupsCount) :
    scanSearch g.blocksPerGroup (s.fs.bitmap i)=none ↔ s.fs.bgFree i=0 := by
  rw [h.consistent.accounted.group i hi]
  constructor
  · intro hnone
    by_contra hpos
    obtain ⟨j,hj,hc⟩ := exists_clear_of_pos _ _ (Nat.pos_of_ne_zero hpos)
    exact scanSearch_complete _ _ j hj hc hnone
  · intro hzero
    cases hs : scanSearch g.blocksPerGroup (s.fs.bitmap i) with
    | none => rfl
    | some k =>
      obtain ⟨hk,hc⟩ := scanSearch_sound _ _ k g.bpg_dvd hs
      have := clearBits_pos _ _ k hk hc
      omega

omit [DecidableEq τ] in
theorem full_of_endsZero (h : Sound g s) (c : τ → Call) (x : Act τ) (hok : StillFree g (s,c) x)
    (hz : s.endsZero g x=true) : Full g s.fs := by
  cases x with
  | newBlock t goal pre => exact newBlockStart_full g s.fs goal (by simpa [State.endsZero] using hz)
  | resume t =>
    have hkn := h.known t
    unfold State.endsZero at hz
    unfold StillFree at hok
    dsimp only at hz hok
    split at hz
    · rename_i i goal pre j hp
      rw [hp] at hkn
      obtain ⟨hi,hj⟩ : i<g.groupsCount ∧ j<g.blocksPerGroup := hkn
      split at hz
      · rename_i k hg
        obtain ⟨hk,hc⟩ := goalSearch_sound _ _ j k g.bpg_dvd g.bpg_lt hj hg
        rw [h.got_nonzero goal pre hi hk hc] at hz
        cases hz
      · exact nextGroup_full_all g s.fs i hi (by simpa using hz)
    · rename_i i goal pre hp
      rw [hp] at hkn hok
      have hi : i<g.groupsCount := hkn
      split at hz
      · rename_i k hg
        obtain ⟨hk,hc⟩ := scanSearch_sound _ _ k g.bpg_dvd hg
        rw [h.got_nonzero goal pre hi hk hc] at hz
        cases hz
      · rename_i hnone
        rcases hok with hpos | hfull
        · rw [(h.scan_none_iff hi).mp hnone] at hpos
          cases hpos
        · exact hfull
    · cases hz
  | _ => cases hz

theorem note_step (h : Sound g s) (s' : State τ) (c : τ → Call) (x : Act τ)
    (hok : StillFree g (s,c) x) (hc : ∀ t,(c t).zero=true → (c t).dry=true) (t : τ)
    (hz : (note g x s s' c t).zero=true) : (note g x s s' c t).dry=true := by
  unfold note at hz ⊢
  split at hz
  · rename_i hb
    have hfull := h.full_of_endsZero c x hok hz
    rw [if_pos hb]
    simp [hfull]
  rename_i hb
  rw [if_neg hb]
  split at hz
  · rename_i hidle
    rw [if_pos hidle]
    exact hc t hz
  rename_i hidle
  rw [if_neg hidle]
  split at hz
  · have hfull := h.full_of_endsZero c x hok hz
    simp [hfull]
  · simp [hc t hz]

theorem gives_up (h : Sound g s) (c : τ → Call) (x : Act τ) (hno : ¬StillFree g (s,c) x)
    {s' : State τ} (hn : s.next g x=some s') :
    ∃ t,(note g x s s' c t).zero=true ∧ ¬Full g s'.fs := by
  cases x with
  | resume t =>
    have hkn := h.known t
    unfold StillFree Pc.StillFree at hno
    dsimp only at hno
    split at hno
    · rename_i i goal pre hp
      rw [hp] at hkn
      have hi : i<g.groupsCount := hkn
      obtain ⟨hzero,hfull⟩ := not_or.mp hno
      have hnone := (h.scan_none_iff hi).mpr (by omega)
      have hs : s'.fs=s.fs := by
        unfold State.next at hn
        split at hn
        · cases hn
        · simp only [State.resume,hp,hnone,Option.some.injEq] at hn
          rw [← hn]
          rfl
      refine ⟨t,?_,by rwa [hs]⟩
      unfold note
      rw [if_neg (by simp [Act.begins]),if_neg (by simp [hp])]
      simp [Act.resumes,State.endsZero,hp,hnone]
    · exact absurd trivial hno
  | _ => exact absurd trivial hno

end Sound

/-- In such runs a call returns 0 only if at some moment of it no group had a free block. A caller
that finds its group emptied returns 0 while another group has free blocks. -/
theorem zero_of_stillFree (g : Geometry) (p : State τ × (τ → Call)) :
    ((watchedMachine g τ).Reach (StillFree g) p → Honest p) ∧
      ((watchedMachine g τ).Reach Machine.anyStep p → ∀ x p',¬StillFree g p x →
        (watchedMachine g τ).next x p=some p' → ∃ t,(p'.2 t).zero=true ∧ ¬Full g p'.1.fs) := by
  constructor
  · intro h t _
    refine Machine.Reach.watched (J := fun c => ∀ t,(c t).zero=true → (c t).dry=true)
      (fun s => reach_sound g) (fun t ht => by cases ht) ?_ h t
    intro s s' c x hs hc hok _
    exact hs.note_step s' c x hok hc
  · intro h x p' hno hn
    obtain ⟨s',hs,he⟩ := Option.map_eq_some_iff.mp hn
    rw [← he]
    exact (reach_sound g h.unwatch).gives_up p.2 x hno hs

theorem zero_of_stillFree_two :
    ∃ p,(watchedMachine oneGroup Bool).exec twoCallers (emptyGroup,fun _ => ⟨false,false⟩)=some p ∧
      p.1.held false=[13] ∧ Honest p := by
  have he : (watchedMachine oneGroup Bool).exec twoCallers
      (emptyGroup,fun _ => ⟨false,false⟩)=some _ := rfl
  have hm : (watchedMachine oneGroup Bool).Meets (StillFree oneGroup) twoCallers
      (emptyGroup,fun _ => ⟨false,false⟩) := by decide +kernel
  have h0 : (watchedMachine oneGroup Bool).init (emptyGroup,fun _ => ⟨false,false⟩) :=
    ⟨emptyGroup_init,rfl⟩
  have hr := (Machine.Reach.start h0).exec hm he
  exact ⟨_,he,by decide +kernel,(zero_of_stillFree oneGroup _).1 hr⟩

def threeGroups : Geometry where
  firstDataBlock := 1
  blocksCount := 193
  blocksPerGroup := 64
  groupsCount := 3
  descPerBlock := 32
  itpg := 2
  preallocBlocks := 3
  blockBitmap i := 1+64*i
  inodeBitmap i := 2+64*i
  inodeTable i := 3+64*i
  first_lt := by decide
  count_lt := by decide
  bpg_pos := oneGroup.bpg_pos
  bpg_dvd := oneGroup.bpg_dvd
  bpg_lt := oneGroup.bpg_lt
  groups_eq := by decide

def lastBlocks : State Bool where
  fs :=
    { bitmap := fun i j => decide (i=0 ∨ i=1 ∧ j≠63 ∨ j<4)
      bgFree := fun i => if i=0 then 0 else if i=1 then 1 else 60
      sFree := 61
      descDirty := fun _ => false
      sDirt := false }
  buf _ := none
  pc _ := .idle
  held _ := []
  panicked := false

theorem lastBlocks_init : (ballocMachine threeGroups Bool).init lastBlocks := by
  refine ⟨⟨⟨?_,?_⟩,?_,?_,?_,?_,?_,?_,?_⟩,fun _ => rfl,fun _ => rfl,rfl⟩
  · decide +kernel
  · decide +kernel
  · intro i j hi hj hp
    change i<3 at hi
    change j<64 at hj
    change 193≤j+i*64+1 at hp
    omega
  · intro i b hi hs hv
    have hb : 1+64*i≤b ∧ b<5+64*i := by
      rcases hs with hs | hs | hs <;> simp only [threeGroups] at hs <;> omega
    change decide ((b-1)/64=0 ∨ (b-1)/64=1 ∧ (b-1)%64≠63 ∨ (b-1)%64<4)=true
    rw [decide_eq_true_eq]
    omega
  · intro t b hb
    cases hb
  · intro t b hb
    cases hb
  · intro t b hb
    cases hb
  · exact fun t => List.nodup_nil
  · intro t u b hb
    cases hb

/-- While the first caller waits for the bitmap the other takes the only free block of the group. -/
def overtaken : List (Act Bool) :=
  [.newBlock true 10 false,.newBlock false 128 false,.bread false,.resume false,.bwrite false,
    .bread true,.resume true,.bwrite true]

/-- The overtaken call returns 0 while the third group is empty all along. -/
theorem overtaken_gives_up :
    ∃ p,(watchedMachine threeGroups Bool).exec overtaken
        (lastBlocks,fun _ => ⟨false,false⟩)=some p ∧
      (watchedMachine threeGroups Bool).Reach Machine.anyStep p ∧ ¬Honest p ∧
      p.1.fs.bgFree 2=60 ∧ p.1.held true=[] ∧ p.1.held false=[128] := by
  have he : (watchedMachine threeGroups Bool).exec overtaken
      (lastBlocks,fun _ => ⟨false,false⟩)=some _ := rfl
  have h0 : (watchedMachine threeGroups Bool).init (lastBlocks,fun _ => ⟨false,false⟩) :=
    ⟨lastBlocks_init,rfl⟩
  have hr := (Machine.Reach.start h0).exec
    ((watchedMachine threeGroups Bool).meets_anyStep _ _) he
  refine ⟨_,he,hr,?_,by decide +kernel,by decide +kernel,by decide +kernel⟩
  intro h
  exact absurd (h true (by decide +kernel) (by decide +kernel)) (by decide +kernel)

end Ext2fsX.Balloc
