import Ext2fsX.Framework.Holders
import Ext2fsX.Framework.Machine
import Ext2fsX.Ialloc.Accounting

namespace Ext2fsX.Ialloc

open Framework
open Function (update update_self update_of_ne)
open Balloc (findFirstZeroBit findFirstZeroBit_lt findFirstZeroBit_clear)

inductive Cont where
  | new (dg : ℕ) (dir : Bool) (last : ℕ)
  | free (ino : ℕ)
  deriving DecidableEq

inductive Pc where
  | idle
  | read (i : ℕ) (c : Cont)
  | locked (i : ℕ) (c : Cont)
  | write (i : ℕ)
  deriving DecidableEq

variable {τ : Type} [DecidableEq τ]

/-- `held t`: the numbers caller `t` has been given and not yet freed; `kind`: made as a directory.
-/
structure State (τ : Type) where
  fs : Inodes
  kind : ℕ → ℕ → Bool
  buf : ℕ → Option τ
  pc : τ → Pc
  held : τ → List ℕ

/-- `blocks` are the free block counts of the groups, which other code changes. -/
inductive Act (τ : Type) where
  | newInode (t : τ) (blocks : ℕ → ℕ) (dg : ℕ) (dir : Bool)
  | freeInode (t : τ) (ino : ℕ)
  | bread (t : τ)
  | resume (t : τ) (blocks : ℕ → ℕ)
  | bwrite (t : τ)
  | give (t u : τ) (ino : ℕ)

namespace State

def goto (s : State τ) (t : τ) (p : Pc) : State τ := { s with pc := update s.pc t p }

def release (s : State τ) (i : ℕ) : State τ := { s with buf := update s.buf i none }

variable (g : Geometry)

def search (s : State τ) (t : τ) (blocks : ℕ → ℕ) (dg : ℕ) (dir : Bool) : State τ :=
  match newInodeStart g s.fs blocks dg dir with
  | some (i,last) => s.goto t (.read i (.new dg dir last))
  | none => s.goto t .idle

/-- The end of the region of `ext2_new_inode` that has the bitmap of group `i`. -/
def take (s : State τ) (t : τ) (blocks : ℕ → ℕ) (dg : ℕ) (dir : Bool) (i : ℕ) :
    Got → State τ
  | .again => (s.release i).search g t blocks dg dir
  | .corrupted => (s.release i).goto t .idle
  | .lost a => { s with fs := a }.goto t (.write i)
  | .got a ino =>
    { s with
      fs := a
      kind := setKind s.kind (g.groupOf ino) (g.bitOf ino) dir
      held := receive s.held t [ino] }.goto t (.write i)

/-- After the lock is retaken with the buffer. An inode is freed with the mode it was made with. -/
def resume (s : State τ) (t : τ) (blocks : ℕ → ℕ) : Option (State τ) :=
  match s.pc t with
  | .locked i (.new dg dir last) =>
    some (s.take g t blocks dg dir i (newInodeFinish g s.fs dir i last))
  | .locked i (.free ino) =>
    some ({ s with
      fs := freeInodeFinish g s.fs (s.kind (g.groupOf ino) (g.bitOf ino)) ino
      held := giveUp s.held t ino }.goto t (.write i))
  | _ => none

/-- The parent lies in a group that exists; a caller frees only inodes it holds, and numbers pass
between callers only while the giver is outside. -/
def next (x : Act τ) (s : State τ) : Option (State τ) :=
  match x with
  | .newInode t blocks dg dir =>
    if s.pc t=.idle ∧ dg<g.groupsCount then some (s.search g t blocks dg dir) else none
  | .freeInode t ino =>
    if s.pc t=.idle ∧ ino∈s.held t then
      if freeInodeOk g ino then some (s.goto t (.read (g.groupOf ino) (.free ino))) else some s
    else none
  | .bread t =>
    match s.pc t with
    | .read i c =>
      if s.buf i=none then
        some ({ s with buf := update s.buf i (some t) }.goto t (.locked i c))
      else none
    | _ => none
  | .resume t blocks => s.resume g t blocks
  | .bwrite t =>
    match s.pc t with
    | .write i => some ((s.release i).goto t .idle)
    | _ => none
  | .give t u ino =>
    if s.pc t=.idle ∧ ino∈s.held t then
      some { s with held := receive (giveUp s.held t ino) u [ino] }
    else none

end State

structure Consistent (g : Geometry) (s : State τ) : Prop where
  accounted : Accounted g s.fs s.kind
  valid : ∀ t,∀ ino∈s.held t,1 ≤ ino ∧ ino≤g.inodesCount
  used : ∀ t,∀ ino∈s.held t,s.fs.bitmap (g.groupOf ino) (g.bitOf ino)=true
  apart : Apart s.held

def iallocMachine (g : Geometry) (τ : Type) [DecidableEq τ] : Machine (State τ) (Act τ) where
  init s := Consistent g s ∧ (∀ t,s.pc t=.idle) ∧ ∀ i,s.buf i=none
  next := State.next g

def Cont.Known (g : Geometry) (own : List ℕ) (i : ℕ) : Cont → Prop
  | .new dg _ _ => i<g.groupsCount ∧ dg<g.groupsCount
  | .free ino => 11 ≤ ino ∧ ino∈own

def Pc.Known (g : Geometry) (own : List ℕ) : Pc → Prop
  | .read i c => c.Known g own i
  | .locked i c => c.Known g own i
  | _ => True

theorem Pc.Known.mono {g : Geometry} {own own' : List ℕ} {p : Pc} (h : p.Known g own)
    (hs : ∀ ino∈own,ino∈own') : p.Known g own' := by
  have cont (i : ℕ) (c : Cont) (hc : c.Known g own i) : c.Known g own' i := by
    cases c with
    | new dg dir last => exact hc
    | free ino => exact ⟨hc.1,hs ino hc.2⟩
  cases p with
  | read i c => exact cont i c h
  | locked i c => exact cont i c h
  | _ => trivial

structure Sound (g : Geometry) (s : State τ) : Prop where
  consistent : Consistent g s
  known : ∀ t,(s.pc t).Known g (s.held t)

namespace Sound

variable {g : Geometry} {s : State τ}

section

variable (h : Sound g s)

include h

variable (t : τ)

theorem goto (p : Pc) (hp : p.Known g (s.held t)) : Sound g (s.goto t p) := by
  refine ⟨⟨h.consistent.accounted,h.consistent.valid,h.consistent.used,h.consistent.apart⟩,
    fun u => ?_⟩
  by_cases hu : u=t
  · subst hu
    simpa [State.goto] using hp
  · simpa [State.goto,update_of_ne hu] using h.known u

omit [DecidableEq τ] in
theorem setBuf (buf : ℕ → Option τ) : Sound g { s with buf := buf } :=
  ⟨⟨h.consistent.accounted,h.consistent.valid,h.consistent.used,h.consistent.apart⟩,h.known⟩

theorem search (blocks : ℕ → ℕ) (dg : ℕ) (dir : Bool)
    (hd : dg<g.groupsCount) : Sound g (s.search g t blocks dg dir) := by
  unfold State.search
  cases hs : newInodeStart g s.fs blocks dg dir with
  | none => exact h.goto t _ trivial
  | some r =>
    obtain ⟨i,last⟩ := r
    exact h.goto t _ ⟨(newInodeStart_some g s.fs blocks dg dir i last hd hs).1,hd⟩

theorem change (fs : Inodes) (kind : ℕ → ℕ → Bool) (own : List ℕ) (i : ℕ)
    (hc : Consistent g { s with fs := fs,kind := kind,held := update s.held t own }) :
    Sound g ({ s with fs := fs,kind := kind,held := update s.held t own }.goto t (.write i)) := by
  refine ⟨⟨hc.accounted,hc.valid,hc.used,hc.apart⟩,fun u => ?_⟩
  by_cases hu : u=t
  · subst hu
    simp only [State.goto,update_self]
    trivial
  · simpa [State.goto,update_of_ne hu] using h.known u

omit [DecidableEq τ] in
theorem clear_free (i j : ℕ) (hj : j<g.inodesPerGroup) (hc : s.fs.bitmap i j=false)
    (t : τ) : g.inodeAt i j∉s.held t := by
  intro hm
  have hs := h.consistent.used t _ hm
  have ho := g.of_inodeAt i j hj
  rw [ho.1,ho.2,hc] at hs
  cases hs

theorem took (t : τ) (dir : Bool) (i j : ℕ) (b : Inodes) (hi : i<g.groupsCount)
    (hk : Took g s.fs b dir i j) :
    Consistent g { s with
      fs := b
      kind := setKind s.kind i j dir
      held := receive s.held t [g.inodeAt i j] } := by
  have ho := g.of_inodeAt i j hk.inside
  have hone (x : ℕ) (hx : x∈[g.inodeAt i j]) : x=g.inodeAt i j := List.mem_singleton.mp hx
  refine ⟨hk.accounted h.consistent.accounted hi,?_,?_,?_⟩
  · intro u x hx
    obtain hm | ⟨-,hm⟩ := (mem_receive _ _ _ _ _).mp hx
    · exact h.consistent.valid u x hm
    · rw [hone x hm]
      exact ⟨by unfold Geometry.inodeAt; omega,g.inodeAt_le i j hi hk.inside⟩
  · intro u x hx
    have keep (k q : ℕ) (hs : s.fs.bitmap k q=true) : b.bitmap k q=true := by
      rw [hk.bits]
      by_cases hki : k=i
      · subst hki
        by_cases hqj : q=j
        · subst hqj
          simp
        · simp [update_of_ne hqj,hs]
      · simp [update_of_ne hki,hs]
    obtain hm | ⟨-,hm⟩ := (mem_receive _ _ _ _ _).mp hx
    · exact keep _ _ (h.consistent.used u x hm)
    · simp [hone x hm,ho.1,ho.2,hk.bits]
  · apply h.consistent.apart.receive t _ (List.nodup_singleton _)
    intro x hx u
    rw [hone x hx]
    exact h.clear_free i j hk.inside hk.clear u

theorem take (hsmall : g.inodesCount<2^31) (t : τ) (blocks : ℕ → ℕ) (dg : ℕ)
    (dir : Bool) (i last : ℕ) (hi : i<g.groupsCount) (hd : dg<g.groupsCount) :
    Sound g (s.take g t blocks dg dir i (newInodeFinish g s.fs dir i last)) := by
  obtain ha | hc | ⟨b,j,hgot,htook⟩ :=
    newInodeFinish_cases g hsmall s.fs s.kind h.consistent.accounted dir i last hi
  · rw [ha]
    exact (h.setBuf _).search t blocks dg dir hd
  · rw [hc]
    exact (h.setBuf _).goto t _ trivial
  · rw [hgot]
    have ho := g.of_inodeAt i j htook.inside
    have hcons := h.took t dir i j b hi htook
    simp only [State.take,ho.1,ho.2]
    exact h.change t b _ _ i hcons

theorem gave (ino : ℕ) (hr : 11 ≤ ino) (hm : ino∈s.held t) : Consistent g { s with
      fs := freeInodeFinish g s.fs (s.kind (g.groupOf ino) (g.bitOf ino)) ino
      held := giveUp s.held t ino } := by
  obtain ⟨h1,h2⟩ := h.consistent.valid t ino hm
  have hat := g.inodeAt_of ino h1
  have hg := freeInodeFinish_gave g s.fs (s.kind (g.groupOf ino) (g.bitOf ino)) ino
    (h.consistent.used t ino hm)
  have hsub := Apart.giveUp_sublist s.held t ino
  refine ⟨hg.accounted h.consistent.accounted (g.groupOf_lt ino h1 h2) (by rwa [hat]),?_,?_,
    h.consistent.apart.giveUp t ino⟩
  · intro u x hx
    exact h.consistent.valid u x ((hsub u).subset hx)
  intro u x hx
  have hold := (hsub u).subset hx
  have hs := h.consistent.used u x hold
  -- another number has another bit
  have hne : ¬(g.groupOf x=g.groupOf ino ∧ g.bitOf x=g.bitOf ino) := by
    rintro ⟨e1,e2⟩
    have hx1 := (h.consistent.valid u x hold).1
    have he : x=ino := by rw [← g.inodeAt_of x hx1,e1,e2,hat]
    exact h.consistent.apart.gone t ino hm u (he ▸ hx)
  rw [hg.bits]
  by_cases hk : g.groupOf x=g.groupOf ino
  · have hq : g.bitOf x≠g.bitOf ino := fun e => hne ⟨hk,e⟩
    rw [hk] at hs ⊢
    rw [update_self,update_of_ne hq]
    exact hs
  · rw [update_of_ne hk]
    exact hs

theorem resume (hsmall : g.inodesCount<2^31) (t : τ) (blocks : ℕ → ℕ) {s' : State τ}
    (hn : s.resume g t blocks=some s') : Sound g s' := by
  have hkn := h.known t
  unfold State.resume at hn
  cases hp : s.pc t with
  | locked i c =>
    rw [hp] at hkn
    cases c with
    | new dg dir last =>
      simp only [hp,Option.some.injEq] at hn
      exact hn ▸ h.take hsmall t blocks dg dir i last hkn.1 hkn.2
    | free ino =>
      simp only [hp,Option.some.injEq] at hn
      exact hn ▸ h.change t _ s.kind _ i (h.gave t ino hkn.1 hkn.2)
  | _ => simp [hp] at hn

theorem give (t u : τ) (ino : ℕ) (ht : s.pc t=.idle) (hm : ino∈s.held t) :
    Sound g { s with held := receive (giveUp s.held t ino) u [ino] } := by
  refine ⟨⟨h.consistent.accounted,?_,?_,h.consistent.apart.give t u ino hm⟩,?_⟩
  · intro v x hx
    obtain ⟨w,hw⟩ := Apart.mem_give hm hx
    exact h.consistent.valid w x hw
  · intro v x hx
    obtain ⟨w,hw⟩ := Apart.mem_give hm hx
    exact h.consistent.used w x hw
  · intro v
    by_cases hv : v=t
    · subst hv
      rw [ht]
      trivial
    · apply (h.known v).mono
      intro x hx
      refine (mem_receive _ _ _ _ _).mpr (.inl ?_)
      rwa [giveUp,update_of_ne hv]

theorem next (hsmall : g.inodesCount<2^31) (x : Act τ) {s' : State τ}
    (hn : s.next g x=some s') : Sound g s' := by
  unfold State.next at hn
  cases x with
  | newInode t blocks dg dir =>
    simp only [Option.ite_none_right_eq_some,Option.some.injEq] at hn
    exact hn.2 ▸ h.search t blocks dg dir hn.1.2
  | freeInode t ino =>
    simp only [Option.ite_none_right_eq_some] at hn
    obtain ⟨⟨-,hm⟩,hn⟩ := hn
    split_ifs at hn with hok
    · cases hn
      simp only [freeInodeOk,Bool.and_eq_true,decide_eq_true_eq] at hok
      exact h.goto t _ ⟨hok.1,hm⟩
    · cases hn
      exact h
  | bread t =>
    cases hp : s.pc t with
    | read i c =>
      simp only [hp,Option.ite_none_right_eq_some,Option.some.injEq] at hn
      have hkn := h.known t
      rw [hp] at hkn
      exact hn.2 ▸ (h.setBuf _).goto t _ hkn
    | _ => simp [hp] at hn
  | resume t blocks => exact h.resume hsmall t blocks hn
  | bwrite t =>
    cases hp : s.pc t with
    | write i =>
      simp only [hp,Option.some.injEq] at hn
      exact hn ▸ (h.setBuf _).goto t _ trivial
    | _ => simp [hp] at hn
  | give t u ino =>
    simp only [Option.ite_none_right_eq_some,Option.some.injEq] at hn
    exact hn.2 ▸ h.give t u ino hn.1.1 hn.1.2

end

end Sound

variable (g : Geometry)

theorem reach_sound (hsmall : g.inodesCount<2^31) {s : State τ}
    (h : (iallocMachine g τ).Reach Machine.anyStep s) : Sound g s := by
  refine Machine.Reach.invariant ?_ ?_ h
  · intro s hs
    refine ⟨hs.1,fun t => ?_⟩
    rw [hs.2.1 t]
    trivial
  · intro s s' x hs _ hn
    exact hs.next hsmall x hn

def usedDirs (g : Geometry) (s : State τ) (i : ℕ) : ℕ :=
  Nat.count (fun j => s.fs.bitmap i j=true ∧ s.kind i j=true) g.inodesPerGroup

omit [DecidableEq τ] in
theorem usedDirs_eq (s : State τ) (i : ℕ) :
    usedDirs g s i=clearBits (noDir s.fs s.kind i) g.inodesPerGroup := by
  unfold usedDirs clearBits noDir
  congr 1
  funext j
  simp

/-- The four counters agree with the bitmaps and no number has been handed out twice. -/
structure Counted (g : Geometry) (s : State τ) : Prop where
  group : ∀ i<g.groupsCount,s.fs.bgFree i=clearBits (s.fs.bitmap i) g.inodesPerGroup
  total : s.fs.sFree=∑ i ∈ Finset.range g.groupsCount,
    clearBits (s.fs.bitmap i) g.inodesPerGroup
  dirs : ∀ i<g.groupsCount,s.fs.bgDirs i=usedDirs g s i
  dirTotal : s.fs.dircount=((∑ i ∈ Finset.range g.groupsCount,usedDirs g s i : ℕ) : ℤ)
  apart : Apart s.held

omit [DecidableEq τ] in
theorem Sound.counted {g : Geometry} {s : State τ} (h : Sound g s) : Counted g s := by
  have ha := h.consistent.accounted
  have hd (i : ℕ) (hi : i<g.groupsCount) : s.fs.bgDirs i=usedDirs g s i := by
    rw [usedDirs_eq]
    exact ha.dirs i hi
  refine ⟨ha.group,?_,hd,?_,h.consistent.apart⟩
  · rw [ha.total]
    exact Finset.sum_congr rfl (fun i hi => ha.group i (Finset.mem_range.mp hi))
  · rw [ha.dirTotal,Finset.sum_congr rfl (fun i hi => hd i (Finset.mem_range.mp hi))]

/-- A filesystem whose only free inode has number `ino`; nobody is in the allocator. -/
def oneFree (g : Geometry) (τ : Type) (ino : ℕ) : State τ where
  fs :=
    { bitmap := fun i j => !(decide (i=g.groupOf ino) && decide (j=g.bitOf ino))
      bgFree := fun i => if i=g.groupOf ino then 1 else 0
      bgDirs := fun _ => 0
      sFree := 1
      dircount := 0
      descDirty := fun _ => false
      sDirt := false }
  kind _ _ := false
  buf _ := none
  pc _ := .idle
  held _ := []

theorem clearBits_oneFree (τ : Type) (ino i : ℕ) :
    clearBits ((oneFree g τ ino).fs.bitmap i) g.inodesPerGroup=(oneFree g τ ino).fs.bgFree i := by
  have hfull : clearBits (fun _ => true) g.inodesPerGroup=0 :=
    Nat.le_zero.mp (clearBits_le_of_set _ _ 0 (fun _ _ _ => rfl))
  by_cases hi : i=g.groupOf ino
  · have hb : (oneFree g τ ino).fs.bitmap i=update (fun _ => true) (g.bitOf ino) false := by
      funext j
      by_cases hj : j=g.bitOf ino
      · subst hj
        simp [oneFree,hi]
      · simp [oneFree,hj]
    rw [hb,clearBits_clear _ _ _ (g.bitOf_lt ino) rfl,hfull]
    simp [oneFree,hi]
  · have hb : (oneFree g τ ino).fs.bitmap i=fun _ => true := by
      funext j
      simp [oneFree,hi]
    rw [hb,hfull]
    simp [oneFree,hi]

theorem oneFree_init (τ : Type) [DecidableEq τ] (ino : ℕ) (h1 : 11 ≤ ino)
    (h2 : ino≤g.inodesCount) : (iallocMachine g τ).init (oneFree g τ ino) := by
  have hg := g.groupOf_lt ino (by omega) h2
  have hd (i : ℕ) : clearBits (noDir (oneFree g τ ino).fs (oneFree g τ ino).kind i)
      g.inodesPerGroup=0 :=
    Nat.le_zero.mp (clearBits_le_of_set _ _ 0 (fun j _ _ => by simp [noDir,oneFree]))
  refine ⟨⟨⟨⟨?_,?_⟩,?_,?_,?_⟩,?_,?_,⟨?_,?_⟩⟩,fun _ => rfl,fun _ => rfl⟩
  · exact fun i _ => (clearBits_oneFree g τ ino i).symm
  · change 1=∑ i ∈ Finset.range g.groupsCount,if i=g.groupOf ino then 1 else 0
    rw [Finset.sum_ite_eq' (Finset.range g.groupsCount),if_pos (Finset.mem_range.mpr hg)]
  · exact fun i _ => (hd i).symm
  · simp [oneFree]
  · intro i j hi hj hr
    by_contra hc
    simp only [oneFree,Bool.not_eq_true,Bool.not_eq_false',Bool.and_eq_true,decide_eq_true_eq] at hc
    have hat := g.inodeAt_of ino (by omega)
    rw [← hc.1,← hc.2] at hat
    omega
  · intro t x hx
    cases hx
  · intro t x hx
    cases hx
  · exact fun t => List.nodup_nil
  · intro t u x hx
    cases hx

theorem findFirstZeroBit_oneFree (τ : Type) (ino : ℕ) :
    findFirstZeroBit ((oneFree g τ ino).fs.bitmap (g.groupOf ino)) 0 g.inodesPerGroup=
      g.bitOf ino := by
  have hlt := findFirstZeroBit_lt ((oneFree g τ ino).fs.bitmap (g.groupOf ino))
    g.inodesPerGroup (g.bitOf ino) (g.bitOf_lt ino) (by simp [oneFree])
  have hc := findFirstZeroBit_clear ((oneFree g τ ino).fs.bitmap (g.groupOf ino)) 0
    g.inodesPerGroup hlt
  simpa [oneFree] using hc

/-- One caller makes a file next to its parent in group `i`. -/
def oneCaller (t : τ) (i : ℕ) : List (Act τ) :=
  [.newInode t (fun _ => 0) i false,.bread t,.resume t (fun _ => 0)]

theorem oneCaller_lost (t : τ) (s : State τ) (i last : ℕ) (a : Inodes)
    (hidle : s.pc t=.idle) (hi : i<g.groupsCount) (hbuf : s.buf i=none)
    (hstart : newInodeStart g s.fs (fun _ => 0) i false=some (i,last))
    (hfin : newInodeFinish g s.fs false i last=.lost a) :
    ∃ s',(iallocMachine g τ).exec (oneCaller t i) s=some s' ∧ s'.fs=a := by
  simp [Machine.exec,iallocMachine,oneCaller,State.next,State.search,State.goto,State.resume,
    State.take,hidle,hi,hstart,hbuf,hfin]

theorem oneFree_finish (τ : Type) (ino : ℕ) (h1 : 2^31 ≤ ino) (h2 : ino≤g.inodesCount) :
    newInodeFinish g (oneFree g τ ino).fs false (g.groupOf ino) (g.groupOf ino)=
      .lost { (oneFree g τ ino).fs with
        bitmap := update (oneFree g τ ino).fs.bitmap (g.groupOf ino)
          (update ((oneFree g τ ino).fs.bitmap (g.groupOf ino)) (g.bitOf ino) true) } := by
  have hlt := g.count_lt
  have hat := g.inodeAt_of ino (by omega)
  have hbit := g.bitOf_lt ino
  have hneg : (ino : ℤ).bmod (2^32)<11 := by
    rw [Int.bmod_def]
    omega
  have hclear : (oneFree g τ ino).fs.bitmap (g.groupOf ino) (g.bitOf ino)=false := by
    simp [oneFree]
  unfold newInodeFinish
  simp only [findFirstZeroBit_oneFree g τ ino,hbit,if_true,hclear,Bool.false_eq_true,if_false,hat]
  rw [if_pos (.inl hneg)]

theorem oneFree_start (τ : Type) (ino : ℕ) (blocks : ℕ → ℕ) :
    newInodeStart g (oneFree g τ ino).fs blocks (g.groupOf ino) false=
      some (g.groupOf ino,g.groupOf ino) := by
  simp [newInodeStart,oneFree]

theorem oneCaller_loses (t : τ) (ino : ℕ) (h1 : 2^31 ≤ ino) (h2 : ino≤g.inodesCount) :
    ∃ s,(iallocMachine g τ).exec (oneCaller t (g.groupOf ino)) (oneFree g τ ino)=some s ∧
      s.fs.bgFree (g.groupOf ino)=1 ∧
      clearBits (s.fs.bitmap (g.groupOf ino)) g.inodesPerGroup=0 := by
  have hg := g.groupOf_lt ino (by omega) h2
  obtain ⟨s,he,hfs⟩ := oneCaller_lost g t _ _ _ _ rfl hg rfl (oneFree_start g τ ino _)
    (oneFree_finish g τ ino h1 h2)
  refine ⟨s,he,?_,?_⟩
  · rw [hfs]
    simp [oneFree]
  have hset := clearBits_set ((oneFree g τ ino).fs.bitmap (g.groupOf ino)) g.inodesPerGroup
    (g.bitOf ino) (g.bitOf_lt ino) (by simp [oneFree])
  have hold : _=if _ then _ else _ := clearBits_oneFree g τ ino (g.groupOf ino)
  rw [if_pos rfl] at hold
  rw [hfs]
  dsimp only
  rw [update_self]
  omega

/-- At every release of the superblock lock the counters agree with the bitmaps and no number has
been handed out twice, exactly when every inode number fits an `int`. -/
theorem ialloc_interleaving_iff (g : Geometry) (τ : Type) [DecidableEq τ] [Inhabited τ] :
    (∀ s : State τ,(iallocMachine g τ).Reach Machine.anyStep s → Counted g s) ↔
      g.inodesCount<2^31 := by
  constructor
  · intro h
    by_contra hn
    obtain ⟨s,he,hone,hzero⟩ := oneCaller_loses g (default : τ) (2^31) le_rfl (by omega)
    have hr := (Machine.Reach.start (oneFree_init g τ (2^31) (by decide) (by omega))).exec
      (Machine.meets_anyStep _ _ _) he
    have hgrp := (h s hr).group (g.groupOf (2^31)) (g.groupOf_lt _ (by decide) (by omega))
    omega
  · intro hsmall s hs
    exact (reach_sound g hsmall hs).counted

def hugeDisk : Geometry where
  groupsCount := 65536
  inodesPerGroup := 32768
  inodesCount := 2147483648
  descPerBlock := 128
  groups_pos := by decide
  ipg_pos := by decide
  ipg_lt := by decide
  count_eq := by decide
  count_lt := by decide

/-- One call marks the last inode used, returns nothing and leaves the count of its group as it was.
-/
theorem hugeDisk_loses :
    (iallocMachine hugeDisk Unit).init (oneFree hugeDisk Unit 2147483648) ∧
      ∃ s,(iallocMachine hugeDisk Unit).exec (oneCaller () 65535)
          (oneFree hugeDisk Unit 2147483648)=some s ∧
        s.fs.bgFree 65535=1 ∧ clearBits (s.fs.bitmap 65535) 32768=0 :=
  ⟨oneFree_init hugeDisk Unit 2147483648 (by decide) (by decide),
    oneCaller_loses hugeDisk () 2147483648 (by decide) (by decide)⟩

end Ext2fsX.Ialloc
