import Ext2fsX.Directory.Format
import Ext2fsX.Framework.Chains

namespace Ext2fsX.Directory

open Framework

inductive Checked where
  | ok
  | eexist
  | einval
  | enotdir
  | failed (errno : ℕ)

/-- The error of `EXT2_VGET`, `vnode_vtype`, and what `vn_rdwr` reads from the start of the file. -/
structure Inodes where
  vget : ℕ → Option ℕ
  isDir : ℕ → Bool
  read : ℕ → Except ℕ Bytes

def rootino : ℕ := 2

variable (v : Inodes)

/-- One pass of the loop of `ext2_checkpath_nolock`: its end, or the next `vp`. -/
def checkpathStep (source vp : ℕ) : Except Checked ℕ :=
  if v.isDir vp=false then .error .enotdir
  else match v.read vp with
    | .error e => .error (.failed e)
    | .ok dirbuf =>
      if dirbuf 18≠2 ∨ dirbuf 20≠46 ∨ dirbuf 21≠46 then .error .enotdir
      else if dirbuf.le32 12=source then .error .einval
      else if dirbuf.le32 12=rootino then .error .ok
      else match v.vget (dirbuf.le32 12) with
        | some e => .error (.failed e)
        | none => .ok (dirbuf.le32 12)

def checkpathLoop (source : ℕ) : ℕ → ℕ → Option Checked
  | 0,_ => none
  | fuel+1,vp => match checkpathStep v source vp with
    | .error r => some r
    | .ok vp => checkpathLoop source fuel vp

def checkpath (source target fuel : ℕ) : Option Checked :=
  if target=source then some .eexist
  else if target=rootino then some .ok
  else checkpathLoop v source fuel target

namespace Inodes

/-- The inode that `..` of a directory names on the disk. -/
def dotdot (v : Inodes) (i : ℕ) : Option ℕ :=
  if v.isDir i=false then none
  else match v.read i with
    | .error _ => none
    | .ok b => if b 18≠2 ∨ b 20≠46 ∨ b 21≠46 then none else some (b.le32 12)

/-- The links between directories that are neither the source nor the root. -/
def between (v : Inodes) (source i : ℕ) : Option ℕ :=
  (v.dotdot i).filter (fun p => decide (p≠source ∧ p≠rootino ∧ v.vget p=none))

theorem between_eq_some {v : Inodes} {source i p : ℕ} : v.between source i=some p ↔
    v.dotdot i=some p ∧ p≠source ∧ p≠rootino ∧ v.vget p=none := by
  rw [between,Option.filter_eq_some_iff,decide_eq_true_iff]

theorem dotdot_lt {v : Inodes} {i p : ℕ} (h : v.dotdot i=some p) : p<4294967296 := by
  unfold dotdot at h
  split at h
  · cases h
  split at h
  · cases h
  · split at h
    · cases h
    · cases h
      exact Bytes.le32_lt _ _

end Inodes

section Steps

variable {v : Inodes} {source vp : ℕ}

theorem checkpathStep_some {p : ℕ} (h : v.dotdot vp=some p) : checkpathStep v source vp=
      if p=source then .error .einval
      else if p=rootino then .error .ok
      else match v.vget p with
        | some e => .error (.failed e)
        | none => .ok p := by
  unfold Inodes.dotdot at h
  unfold checkpathStep
  split at h
  · cases h
  next hd =>
  rw [if_neg hd]
  split at h
  · cases h
  · split at h
    · cases h
    · next b hb hn =>
      cases h
      rw [if_neg hn]

theorem checkpathStep_none (h : v.dotdot vp=none) :
    ∃ r,checkpathStep v source vp=.error r ∧ r≠.ok := by
  unfold Inodes.dotdot at h
  unfold checkpathStep
  split at h
  · next hd =>
    rw [if_pos hd]
    exact ⟨_,rfl,by simp⟩
  next hd =>
  rw [if_neg hd]
  split at h
  · exact ⟨_,rfl,by simp⟩
  · split at h
    · next hn =>
      rw [if_pos hn]
      exact ⟨_,rfl,by simp⟩
    · cases h

theorem checkpathStep_ok_iff {p : ℕ} :
    checkpathStep v source vp=.ok p ↔ v.between source vp=some p := by
  rw [Inodes.between_eq_some]
  cases hd : v.dotdot vp with
  | none =>
    obtain ⟨r,hr,-⟩ : ∃ r,checkpathStep v source vp=.error r ∧ r≠.ok := checkpathStep_none hd
    simp [hr]
  | some q =>
    rw [checkpathStep_some hd]
    by_cases h1 : q=source
    · rw [if_pos h1]
      simp only [reduceCtorEq,Option.some.injEq,false_iff]
      rintro ⟨rfl,h,-⟩
      exact h h1
    rw [if_neg h1]
    by_cases h2 : q=rootino
    · rw [if_pos h2]
      simp only [reduceCtorEq,Option.some.injEq,false_iff]
      rintro ⟨rfl,-,h,-⟩
      exact h h2
    rw [if_neg h2]
    cases hv : v.vget q with
    | some e =>
      simp only [reduceCtorEq,Option.some.injEq,false_iff]
      rintro ⟨rfl,-,-,h⟩
      rw [hv] at h
      cases h
    | none =>
      simp only [Except.ok.injEq,Option.some.injEq]
      constructor
      · rintro rfl
        exact ⟨rfl,h1,h2,hv⟩
      · exact And.left

theorem checkpathLoop_mono {fuel fuel' : ℕ} {r : Checked} (hle : fuel≤fuel')
    (h : checkpathLoop v source fuel vp=some r) : checkpathLoop v source fuel' vp=some r := by
  induction fuel generalizing vp fuel' with
  | zero => cases h
  | succ fuel ih =>
    obtain ⟨k,rfl⟩ : ∃ k,fuel'=k+1 := ⟨fuel'-1,by omega⟩
    unfold checkpathLoop at h ⊢
    cases hs : checkpathStep v source vp with
    | error r' =>
      rw [hs] at h
      exact h
    | ok p =>
      rw [hs] at h
      exact ih (by omega) h

theorem checkpathLoop_none_iff (fuel : ℕ) :
    checkpathLoop v source fuel vp=none ↔ climb (v.between source) fuel vp≠none := by
  induction fuel generalizing vp with
  | zero => simp [checkpathLoop]
  | succ fuel ih =>
    unfold checkpathLoop
    rw [climb_succ]
    cases hs : checkpathStep v source vp with
    | error r =>
      have hb : v.between source vp=none := by
        rw [Option.eq_none_iff_forall_ne_some]
        intro p hp
        rw [checkpathStep_ok_iff.mpr hp] at hs
        cases hs
      simp [hb]
    | ok p =>
      rw [checkpathStep_ok_iff.mp hs,Option.bind_some]
      exact ih

theorem checkpathLoop_ends_iff : (∃ fuel r,checkpathLoop v source fuel vp=some r) ↔
    Unlooped (v.between source) vp := by
  have hends := climb_ends_iff (f := v.between source) 4294967296 id Function.injective_id
    (fun _ _ h => Inodes.dotdot_lt (Inodes.between_eq_some.mp h).1) vp
  rw [← hends]
  apply exists_congr
  intro fuel
  rw [← Option.ne_none_iff_exists',Ne,checkpathLoop_none_iff,not_not]

theorem checkpathLoop_ok {fuel : ℕ} (h : checkpathLoop v source fuel vp=some .ok) :
    ∃ n i,climb (v.between source) n vp=some i ∧ v.dotdot i=some rootino := by
  induction fuel generalizing vp with
  | zero => cases h
  | succ fuel ih =>
    unfold checkpathLoop at h
    cases hd : v.dotdot vp with
    | none =>
      obtain ⟨r,hr,hne⟩ : ∃ r,checkpathStep v source vp=.error r ∧ r≠.ok := checkpathStep_none hd
      rw [hr] at h
      exact absurd (Option.some.inj h) hne
    | some p =>
      cases hs : checkpathStep v source vp with
      | ok q =>
        rw [hs] at h
        obtain ⟨n,i,hn,hi⟩ := ih h
        refine ⟨n+1,i,?_,hi⟩
        rw [climb_succ,checkpathStep_ok_iff.mp hs,Option.bind_some]
        exact hn
      | error r =>
        rw [hs] at h
        cases h
        rw [checkpathStep_some hd] at hs
        by_cases h1 : p=source
        · rw [if_pos h1] at hs
          cases hs
        · rw [if_neg h1] at hs
          by_cases h2 : p=rootino
          · exact ⟨0,vp,rfl,h2 ▸ hd⟩
          · rw [if_neg h2] at hs
            cases hv : v.vget p <;> simp [hv] at hs

end Steps

/-- A finite directory tree whose directories can be read and name their parents. -/
structure DirTree where
  dirs : Finset ℕ
  parent : ℕ → ℕ
  root : rootino∈dirs
  closed : ∀ d∈dirs,parent d∈dirs
  top : parent rootino=rootino
  rooted : ∀ d∈dirs,∃ n,parent^[n] d=rootino
  dotdot : ∀ d∈dirs,v.dotdot d=some (parent d)
  vget : ∀ d∈dirs,v.vget d=none

namespace DirTree

variable {v : Inodes}

/-- `s` is the parent of `t`, or above its parent. -/
def Above (T : DirTree v) (s t : ℕ) : Prop := ∃ n,T.parent^[n] (T.parent t)=s

theorem above_iff (T : DirTree v) (s t : ℕ) :
    T.Above s t ↔ T.parent t=s ∨ T.Above s (T.parent t) := by
  constructor
  · rintro ⟨n,hn⟩
    cases n with
    | zero => exact .inl hn
    | succ n => exact .inr ⟨n,hn⟩
  · rintro (h | ⟨n,hn⟩)
    · exact ⟨0,h⟩
    · exact ⟨n+1,hn⟩

theorem above_root {T : DirTree v} {s : ℕ} (h : T.Above s rootino) : s=rootino := by
  obtain ⟨n,hn⟩ := h
  rw [T.top,Function.iterate_fixed T.top] at hn
  exact hn.symm

theorem loop_result (T : DirTree v) (s n t : ℕ) (ht : t∈T.dirs) (hne : t≠rootino)
    (hn : T.parent^[n] t=rootino) : ∃ fuel r,checkpathLoop v s fuel t=some r ∧
      (T.Above s t → r=.einval) ∧ (¬T.Above s t → r=.ok) := by
  induction n generalizing t with
  | zero => exact absurd hn hne
  | succ n ih =>
    have hstep : checkpathStep v s t=_ := checkpathStep_some (T.dotdot t ht)
    by_cases h1 : T.parent t=s
    · rw [if_pos h1] at hstep
      refine ⟨1,.einval,by rw [checkpathLoop,hstep],fun _ => rfl,fun h => ?_⟩
      exact absurd ((T.above_iff s t).mpr (.inl h1)) h
    rw [if_neg h1] at hstep
    by_cases h2 : T.parent t=rootino
    · rw [if_pos h2] at hstep
      refine ⟨1,.ok,by rw [checkpathLoop,hstep],fun h => ?_,fun _ => rfl⟩
      have habove := ((T.above_iff s t).mp h).resolve_left h1
      rw [h2] at habove h1
      exact absurd (above_root habove).symm h1
    · rw [if_neg h2,T.vget _ (T.closed t ht)] at hstep
      obtain ⟨fuel,r,hr,hin,hout⟩ := ih (T.parent t) (T.closed t ht) h2 hn
      refine ⟨fuel+1,r,?_,fun h => ?_,fun h => ?_⟩
      · rw [checkpathLoop,hstep]
        exact hr
      · exact hin (((T.above_iff s t).mp h).resolve_left h1)
      · exact hout (fun h' => h ((T.above_iff s t).mpr (.inr h')))

end DirTree

theorem checkpath_mono {v : Inodes} {s t fuel fuel' : ℕ} {r : Checked} (hle : fuel≤fuel')
    (h : checkpath v s t fuel=some r) : checkpath v s t fuel'=some r := by
  unfold checkpath at h ⊢
  by_cases h1 : t=s
  · rw [if_pos h1] at h ⊢
    exact h
  rw [if_neg h1] at h ⊢
  by_cases h2 : t=rootino
  · rw [if_pos h2] at h ⊢
    exact h
  · rw [if_neg h2] at h ⊢
    exact checkpathLoop_mono hle h

/-- In a tree the walk ends with the answer that rename needs. On any graph of `..` entries it ends
exactly when no loop that avoids the source and the root is reached, and without an error only at
the root. -/
theorem checkpath_ends_iff (v : Inodes) (source target : ℕ) :
    (∀ T : DirTree v,source∈T.dirs → target∈T.dirs →
      ∃ n r,(∀ fuel,n≤fuel → checkpath v source target fuel=some r) ∧
        (target=source → r=.eexist) ∧
        (target≠source → T.Above source target → r=.einval) ∧
        (target≠source → ¬T.Above source target → r=.ok)) ∧
    ((∃ fuel r,checkpath v source target fuel=some r) ↔
      target=source ∨ target=rootino ∨ Unlooped (v.between source) target) ∧
    ∀ fuel,checkpath v source target fuel=some .ok → target=rootino ∨
      ∃ n i,climb (v.between source) n target=some i ∧ v.dotdot i=some rootino := by
  refine ⟨?_,?_,?_⟩
  · intro T hs ht
    by_cases h1 : target=source
    · refine ⟨0,.eexist,fun fuel _ => ?_,fun _ => rfl,fun h => absurd h1 h,fun h => absurd h1 h⟩
      rw [checkpath,if_pos h1]
    · by_cases h2 : target=rootino
      · refine ⟨0,.ok,fun fuel _ => ?_,fun h => absurd h h1,fun _ h => ?_,fun _ _ => rfl⟩
        · rw [checkpath,if_neg h1,if_pos h2]
        · rw [h2] at h h1
          exact absurd (DirTree.above_root h).symm h1
      · obtain ⟨n,hn⟩ := T.rooted target ht
        obtain ⟨fuel,r,hr,hin,hout⟩ := T.loop_result source n target ht h2 hn
        refine ⟨fuel,r,fun fuel' hle => ?_,fun h => absurd h h1,fun _ => hin,fun _ => hout⟩
        apply checkpath_mono hle
        rw [checkpath,if_neg h1,if_neg h2]
        exact hr
  · unfold checkpath
    by_cases h1 : target=source
    · simp [h1]
    · simp only [h1,if_false,false_or]
      by_cases h2 : target=rootino
      · simp [h2]
      · simp only [h2,if_false,false_or]
        exact checkpathLoop_ends_iff
  · intro fuel h
    unfold checkpath at h
    by_cases h1 : target=source
    · rw [if_pos h1] at h
      cases h
    · rw [if_neg h1] at h
      by_cases h2 : target=rootino
      · exact .inl h2
      · rw [if_neg h2] at h
        exact .inr (checkpathLoop_ok h)

def templateOf (parent : UInt8) : Bytes := fun i =>
  if i=12 then parent else if i=18 then 2 else if i=20 ∨ i=21 then 46 else 0

def severed : Inodes where
  vget := fun _ => none
  isDir := fun _ => true
  read := fun i =>
    .ok (templateOf (if i=12 then 13 else if i=13 then 12 else 2))

/-- The move of the directory 11 into 12 never ends. -/
theorem severed_loops : ¬∃ fuel r,checkpath severed 11 12 fuel=some r := by
  have hloop (fuel : ℕ) : checkpathLoop severed 11 fuel 12=none ∧
      checkpathLoop severed 11 fuel 13=none := by
    induction fuel with
    | zero => exact ⟨rfl,rfl⟩
    | succ fuel ih => exact ⟨ih.2,ih.1⟩
  rintro ⟨fuel,r,hr⟩
  have hnone : checkpath severed 11 12 fuel=none := (hloop fuel).1
  rw [hnone] at hr
  cases hr

def severedTree : DirTree severed where
  dirs := {2,11}
  parent := fun _ => 2
  root := by decide
  closed := by decide
  top := rfl
  rooted := fun _ _ => ⟨1,rfl⟩
  dotdot := by decide
  vget := by decide

theorem checkpath_ends_severed :
    (∃ n r,(∀ fuel,n≤fuel → checkpath severed 2 11 fuel=some r) ∧
      (11=2 → r=.eexist) ∧
      (11≠2 → severedTree.Above 2 11 → r=.einval) ∧
      (11≠2 → ¬severedTree.Above 2 11 → r=.ok)) :=
  (checkpath_ends_iff severed 2 11).1 severedTree (by decide) (by decide)

end Ext2fsX.Directory
