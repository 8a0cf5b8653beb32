import Ext2fsX.Directory.Calls
import Ext2fsX.Framework.Machine

namespace Ext2fsX.Directory.Create

open Framework

variable {cfg : Config} {τ : Type} [DecidableEq τ]

/-- Its lookup has found the name free, or its `ext2_direnter` has given `IN_LOOK` up and is about
to truncate. -/
inductive Phase where
  | idle
  | ready (name : Name)
  | cutting (length : ℕ)
  deriving DecidableEq

structure State (τ : Type) where
  dir : Dir
  stop : Option Stop
  phase : τ → Phase

inductive Act (cfg : Config) (τ : Type) where
  | lookup (t : τ) (name : Name) (env : Env)
  | enter (t : τ) (ip : Target cfg) (env : Env)
  | truncate (t : τ)

namespace State

def goto (s : State τ) (t : τ) (p : Phase) (d : Dir) : State τ :=
  { s with dir := d, phase := Function.update s.phase t p }

def lookup (cfg : Config) (s : State τ) (t : τ) (name : Name) (env : Env) : State τ :=
  match s.dir.lookup cfg .create name env with
  | .error x => { s with stop := some x }
  | .ok (d,e) => s.goto t (if e=.ejustreturn then .ready name else .idle) d

def enter (s : State τ) (t : τ) (name : Name) (ip : Target cfg) (env : Env) : State τ :=
  match s.dir.enter cfg .create name ip env with
  | .error x => { s with stop := some x }
  | .ok (d,_,none) => s.goto t .idle d
  | .ok (d,_,some length) => s.goto t (.cutting length) d

def next (a : Act cfg τ) (s : State τ) : Option (State τ) :=
  if s.stop=none then
    match a with
    | .lookup t name env => if s.phase t=.idle then some (s.lookup cfg t name env) else none
    | .enter t ip env =>
      match s.phase t with
      | .ready name => some (s.enter t name ip env)
      | _ => none
    | .truncate t =>
      match s.phase t with
      | .cutting length => some (s.goto t .idle (s.dir.truncate length))
      | _ => none
  else none

end State

def createMachine (cfg : Config) (τ : Type) [DecidableEq τ] : Machine (State τ) (Act cfg τ) where
  init s := Sound cfg s.dir ∧ s.stop=none ∧ ∀ t,s.phase t=.idle
  next := State.next

/-- The slot of the last lookup still serves, the name is still free, and a truncation cuts off
nothing live. -/
def upToDate (s : State τ) : Act cfg τ → Bool
  | .lookup _ _ _ => true
  | .enter t _ _ =>
    match s.phase t with
    | .ready name => s.dir.insertable cfg name
    | _ => true
  | .truncate t =>
    match s.phase t with
    | .cutting length =>
      decide (length%cfg.blocksize=0 ∧ length ≤ s.dir.size) && deadFrom s.dir.records length
    | _ => true

def UpToDate (s : State τ) (a : Act cfg τ) : Prop := upToDate s a=true

deriving instance Decidable for UpToDate

structure Fine (cfg : Config) (s : State τ) : Prop where
  sound : Sound cfg s.dir
  stop : s.stop=none ∨ s.stop=some .indexed

structure Grows (cfg : Config) (s s' : State τ) : Prop where
  fine : Fine cfg s'
  kept : ∀ x∈s.dir.entries,x∈s'.dir.entries

variable {s : State τ}

theorem Fine.lookup (h : Fine cfg s) (t : τ) (name : Name) (env : Env) :
    Grows cfg s (s.lookup cfg t name env) := by
  obtain ⟨d',e,hl,hs,hent⟩ := h.sound.lookup .create name env
  unfold State.lookup
  rw [hl]
  refine ⟨⟨hs,h.stop⟩,?_⟩
  intro x hx
  change x∈d'.entries
  rw [hent]
  exact hx

theorem Fine.enter (h : Fine cfg s) (t : τ) {name : Name}
    (hi : s.dir.insertable cfg name=true) (ip : Target cfg) (env : Env) :
    Grows cfg s (s.enter t name ip env) := by
  have hends := h.sound.enter hi (by rfl : NameiOp.create.wantsSlot=true) ip env
  unfold State.enter
  cases hr : s.dir.enter cfg .create name ip env with
  | error x =>
    rw [hr] at hends
    cases hends
    exact ⟨⟨h.sound,.inr rfl⟩,fun _ hx => hx⟩
  | ok p =>
    rw [hr] at hends
    cases hends with
    | failed d' e hne hs hent =>
      refine ⟨⟨hs,h.stop⟩,?_⟩
      intro x hx
      change x∈d'.entries
      rw [hent]
      exact hx
    | done d' l hs hent hcut =>
      have kept (x : List UInt8 × ℕ) (hx : x∈s.dir.entries) : x∈d'.entries :=
        hent.symm.subset (List.mem_cons_of_mem _ hx)
      cases l with
      | _ => exact ⟨⟨hs,h.stop⟩,kept⟩

theorem Fine.truncate (h : Fine cfg s) (t : τ) {length : ℕ}
    (hc : Cuttable cfg s.dir.records s.dir.size length) :
    Grows cfg s (s.goto t .idle (s.dir.truncate length)) := by
  obtain ⟨h1,h2⟩ := h.sound.truncate hc
  refine ⟨⟨h1,h.stop⟩,?_⟩
  intro x hx
  change x∈(s.dir.truncate length).entries
  rw [h2]
  exact hx

theorem Fine.next {s s' : State τ} (h : Fine cfg s) {a : Act cfg τ} (ha : UpToDate s a)
    (hn : State.next a s=some s') : Grows cfg s s' := by
  unfold State.next at hn
  split at hn
  · cases a with
    | lookup t name env =>
      dsimp only at hn
      split at hn
      · exact Option.some.inj hn ▸ h.lookup t name env
      · cases hn
    | enter t ip env =>
      cases hp : s.phase t with
      | ready name =>
        simp only [UpToDate,upToDate,hp] at ha
        simp only [hp] at hn
        exact Option.some.inj hn ▸ h.enter t ha ip env
      | _ => simp [hp] at hn
    | truncate t =>
      cases hp : s.phase t with
      | cutting length =>
        simp only [UpToDate,upToDate,hp,Bool.and_eq_true,decide_eq_true_eq] at ha
        simp only [hp] at hn
        exact Option.some.inj hn ▸
          h.truncate t ⟨Nat.dvd_of_mod_eq_zero ha.1.1,ha.1.2,deadFrom_spec ha.2⟩
      | _ => simp [hp] at hn
  · cases hn

/-- In such runs no name occurs twice, no entry is lost, and no panic is reached. -/
theorem create_of_upToDate {s : State τ} (h : (createMachine cfg τ).Reach UpToDate s) :
    (s.dir.entries.map Prod.fst).Nodup ∧ (s.stop=none ∨ s.stop=some .indexed) ∧
      ∀ (a : Act cfg τ) (s' : State τ),UpToDate s a → State.next a s=some s' →
        ∀ x∈s.dir.entries,x∈s'.dir.entries := by
  have hinit (s : State τ) (hi : (createMachine cfg τ).init s) : Fine cfg s := ⟨hi.1,.inl hi.2.1⟩
  have hfine : Fine cfg s :=
    h.invariant hinit (fun s s' a hs ha hn => (hs.next ha hn).fine)
  exact ⟨hfine.sound.wf.names,hfine.stop,fun a s' ha hn => (hfine.next ha hn).kept⟩

def smallStart : State Bool := ⟨smallDir,none,fun _ => .idle⟩

theorem smallStart_init : (createMachine smallConfig Bool).init smallStart :=
  ⟨smallDir_sound,rfl,fun _ => rfl⟩

def createTwo : List (Act smallConfig Bool) :=
  [.lookup true nameB quiet,.enter true ⟨13,1,by decide,by decide⟩ quiet,
    .lookup false nameC quiet,.enter false ⟨14,1,by decide,by decide⟩ quiet]

theorem create_of_upToDate_two :
    ∃ s,(createMachine smallConfig Bool).exec createTwo smallStart=some s ∧
      (s.dir.entries.map Prod.fst).Nodup := by
  have hm : (createMachine smallConfig Bool).Meets UpToDate createTwo smallStart := by
    decide +kernel
  have he : ((createMachine smallConfig Bool).exec createTwo smallStart).isSome=true := by
    decide +kernel
  obtain ⟨s,hs⟩ := Option.isSome_iff_exists.mp he
  exact ⟨s,hs,(create_of_upToDate ((Machine.Reach.start smallStart_init).exec hm hs)).1⟩

def createSame : List (Act smallConfig Bool) :=
  [.lookup true nameB quiet,.lookup false nameB quiet,
    .enter true ⟨13,1,by decide,by decide⟩ quiet,.enter false ⟨14,1,by decide,by decide⟩ quiet]

/-- The second `ext2_direnter` uses the slot of its lookup without looking for the name. -/
theorem create_twice :
    ¬∀ s : State Bool,(createMachine smallConfig Bool).Reach Machine.anyStep s →
      (s.dir.entries.map Prod.fst).Nodup := by
  intro h
  have hrun : ((createMachine smallConfig Bool).exec createSame smallStart).any (fun s =>
      decide (¬(s.dir.entries.map Prod.fst).Nodup))=true := by decide +kernel
  obtain ⟨s,hs,hd⟩ := (Option.any_eq_true _ _).mp hrun
  exact of_decide_eq_true hd
    (h s ((Machine.Reach.start smallStart_init).exec (Machine.meets_anyStep _ _ _) hs))

end Ext2fsX.Directory.Create
