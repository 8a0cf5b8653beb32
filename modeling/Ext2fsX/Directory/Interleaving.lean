import Ext2fsX.Directory.Calls
import Ext2fsX.Framework.Machine

namespace Ext2fsX.Directory

open Framework

variable {cfg : Config}

/-- A whole call; `ext2_direnter` is for a new name or for the new name of a rename. -/
inductive Act (cfg : Config) where
  | lookup (op : NameiOp) (name : Name) (env : Env)
  | direnter (renames : Bool) (name : Name) (ip : Target cfg) (env : Env)
  | dirremove (name : Name) (env : Env)
  | dirrewrite (name : Name) (ip : Target cfg) (env : Env)

def enterOp (renames : Bool) : NameiOp := if renames then .rename else .create

def Act.call : Act cfg → Dir → Except Stop (Dir × Errno)
  | lookup op name env,d => d.lookup cfg op name env
  | direnter renames name ip env,d => d.direnter cfg (enterOp renames) name ip env
  | dirremove name env,d => d.dirremove cfg name env
  | dirrewrite name ip env,d => d.dirrewrite cfg name ip env

/-- What a call that returned `e` should have done to the live entries. -/
def Act.Meaning (e : Errno) (old new : List (List UInt8 × ℕ)) : Act cfg → Prop
  | lookup _ _ _ => new=old
  | direnter _ name ip _ =>
    if e=.ok then new.Perm ((name.bytes,ip.number)::old) else new=old
  | dirremove name _ =>
    new=if e=.ok then old.filter (fun x => x.1≠name.bytes) else old
  | dirrewrite name ip _ =>
    new=if e=.ok then
        old.map (fun x => if x.1=name.bytes then (name.bytes,ip.number) else x)
      else old

/-- The directory between the calls, unless one of them did not return. -/
structure State where
  dir : Dir
  stop : Option Stop

def State.next (a : Act cfg) (s : State) : Option State :=
  if s.stop=none then
    match a.call s.dir with
    | .error x => some { s with stop := some x }
    | .ok (d,_) => some { s with dir := d }
  else none

def dirMachine (cfg : Config) : Machine State (Act cfg) where
  init s := Sound cfg s.dir ∧ s.stop=none
  next := State.next

def Act.upToDate (d : Dir) : Act cfg → Bool
  | lookup _ _ _ => true
  | direnter _ name _ _ => d.insertable cfg name
  | dirremove name _ => d.fresh cfg name
  | dirrewrite name _ _ => d.freshOffset cfg name

def UpToDate (s : State) (a : Act cfg) : Prop := a.upToDate s.dir=true

deriving instance Decidable for UpToDate

theorem wantsSlot_enterOp (renames : Bool) : (enterOp renames).wantsSlot=true := by
  cases renames <;> rfl

theorem Sound.call {d : Dir} (h : Sound cfg d) (a : Act cfg) (ha : a.upToDate d=true) :
    a.call d=.error .indexed ∨
    ∃ d' e,a.call d=.ok (d',e) ∧ Sound cfg d' ∧ a.Meaning e d.entries d'.entries := by
  cases a with
  | lookup op name env =>
    obtain ⟨d',e,h1,h2,h3⟩ := h.lookup op name env
    exact .inr ⟨d',e,h1,h2,h3⟩
  | direnter renames name ip env => exact h.direnter ha (wantsSlot_enterOp renames) ip env
  | dirremove name env =>
    obtain ⟨d',e,h1,h2,h3⟩ := h.dirremove ha env
    exact .inr ⟨d',e,h1,h2,h3⟩
  | dirrewrite name ip env =>
    obtain ⟨d',e,h1,h2,h3⟩ := h.dirrewrite ha ip env
    exact .inr ⟨d',e,h1,h2,h3⟩

theorem sound_of_reach {s : State} (h : (dirMachine cfg).Reach UpToDate s) : Sound cfg s.dir := by
  have hinit (s : State) (hi : (dirMachine cfg).init s) : Sound cfg s.dir := hi.1
  refine h.invariant hinit ?_
  intro s s' a hs ha hn
  simp only [dirMachine,State.next] at hn
  split at hn
  · rcases hs.call a ha with he | ⟨d',e,he,hd,-⟩
    · rw [he] at hn
      obtain rfl := Option.some.inj hn
      exact hs
    · rw [he] at hn
      obtain rfl := Option.some.inj hn
      exact hd
  · cases hn

/-- In such runs every block stays tiled by well-formed records, and every call does to the live
entries what it is for. -/
theorem calls_of_upToDate {s : State} (h : (dirMachine cfg).Reach UpToDate s) :
    WellFormed cfg s.dir ∧ ∀ a : Act cfg,UpToDate s a →
      a.call s.dir=.error .indexed ∨
      ∃ d' e,a.call s.dir=.ok (d',e) ∧ WellFormed cfg d' ∧
        a.Meaning e s.dir.entries d'.entries := by
  have hs := sound_of_reach h
  refine ⟨hs.wf,fun a ha => ?_⟩
  rcases hs.call a ha with he | ⟨d',e,he,hd,hm⟩
  · exact .inl he
  · exact .inr ⟨d',e,he,hd.wf,hm⟩

theorem smallDir_init : (dirMachine smallConfig).init ⟨smallDir,none⟩ := ⟨smallDir_sound,rfl⟩

def removeThenEnter : List (Act smallConfig) :=
  [.lookup .delete nameA quiet,.dirremove nameA quiet,
    .direnter false nameB ⟨12,1,by decide,by decide⟩ quiet]

theorem calls_of_upToDate_small :
    ∃ s,(dirMachine smallConfig).exec removeThenEnter ⟨smallDir,none⟩=some s ∧
      WellFormed smallConfig s.dir := by
  have hm : (dirMachine smallConfig).Meets UpToDate removeThenEnter ⟨smallDir,none⟩ := by
    decide +kernel
  have he : ((dirMachine smallConfig).exec removeThenEnter ⟨smallDir,none⟩).isSome=true := by
    decide +kernel
  obtain ⟨s,hs⟩ := Option.isSome_iff_exists.mp he
  exact ⟨s,hs,(calls_of_upToDate ((Machine.Reach.start smallDir_init).exec hm hs)).1⟩

def removeAround : List (Act smallConfig) :=
  [.lookup .delete nameA quiet,.lookup .delete nameX quiet,.dirremove nameX quiet]

/-- The cached distance is stale: the call returns 0 and `a` is still there. -/
theorem dirremove_removes_nothing :
    ¬∀ s : State,(dirMachine smallConfig).Reach Machine.anyStep s → ∀ name env d',
      s.dir.dirremove smallConfig name env=.ok (d',.ok) →
        d'.entries=s.dir.entries.filter (fun x => x.1≠name.bytes) := by
  intro h
  have hrun : ((dirMachine smallConfig).exec removeAround ⟨smallDir,none⟩).any (fun s =>
      match s.dir.dirremove smallConfig nameA quiet with
      | .ok (d',.ok) => d'.entries≠s.dir.entries.filter (fun x => x.1≠nameA.bytes)
      | _ => false)=true := by decide +kernel
  obtain ⟨s,hs,hd⟩ := (Option.any_eq_true _ _).mp hrun
  split at hd
  · rename_i d' he
    have hr := (Machine.Reach.start smallDir_init).exec (Machine.meets_anyStep _ _ _) hs
    simp [h s hr nameA quiet d' he] at hd
  · cases hd

end Ext2fsX.Directory
