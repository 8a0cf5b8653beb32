import Ext2fsX.Links.Renames

namespace Ext2fsX.Links

open Framework
open Links.Tree

variable {ν : Type} [DecidableEq ν]

def Op.Ok (s : Tree ν) : Op ν → Prop
  | .mkdir f dvp _ _ => MkdirOk s f dvp
  | .rename f r => r.Ok s f
  | _ => True

theorem Op.run_spec {s : Tree ν} (h : Sound s) (o : Op ν) (hv : o.valid s=true) :
    ∃ e s',o.run s=some (e,s') ∧ Shaped s' ∧ (s'.Counted ↔ o.Ok s) := by
  cases o with
  | create f dvp ip n =>
    obtain ⟨hd,hn,hz⟩ := of_decide_eq_true hv
    have hs := h.makeinode (f := f) hd hn hz
    exact ⟨_,_,rfl,hs.toShaped,iff_of_true hs.counted trivial⟩
  | mkdir f dvp ip n =>
    obtain ⟨hd,hn,hz⟩ := of_decide_eq_true hv
    exact ⟨_,_,rfl,h.mkdir hd hn hz⟩
  | link f vp tdvp n =>
    obtain ⟨hd,hn,hz⟩ := of_decide_eq_true hv
    have hs := h.link (f := f) hd hn hz
    exact ⟨_,_,rfl,hs.toShaped,iff_of_true hs.counted trivial⟩
  | remove f dvp vp n =>
    have hs := h.unlink (f := f) (of_decide_eq_true hv)
    exact ⟨_,_,rfl,hs.toShaped,iff_of_true hs.counted trivial⟩
  | rmdir f dvp vp n =>
    obtain ⟨hm,hdir⟩ := of_decide_eq_true hv
    have hs := h.rmdir (f := f) hm hdir
    exact ⟨_,_,rfl,hs.toShaped,iff_of_true hs.counted trivial⟩
  | rename f r =>
    simp only [Op.valid,Bool.and_eq_true] at hv
    obtain ⟨hsrc,hto,hdot⟩ := of_decide_eq_true hv.1
    apply Rename.run_spec h hsrc hto hdot
    have htarget := hv.2
    unfold Rename.Target
    cases ht : r.tvp with
    | _ =>
      rw [ht] at htarget
      exact of_decide_eq_true htarget

def treeMachine : Machine (Tree ν) (Op ν) where
  init := Sound
  next o s := if o.valid s then (o.run s).map Prod.snd else none

omit [DecidableEq ν] in
theorem Tree.nlink_eq {s t : Tree ν} (hs : s.Counted) (ht : t.Counted) (he : t.entries=s.entries) : t.nlink=s.nlink := by
  funext i
  apply Int16.toInt_inj.mp
  rw [ht i,hs i,he]

theorem reach_sound {s : Tree ν} (h : treeMachine.Reach (fun s o => o.Ok s) s) : Sound s := by
  refine Machine.Reach.invariant (I := Sound) (fun s hs => hs) ?_ h
  intro s s' o hs hok hn
  have hn : (if o.valid s then (o.run s).map Prod.snd else none)=some s' := hn
  split at hn
  case isTrue hv =>
    obtain ⟨e,t,hrun,hshape,hc⟩ := o.run_spec hs hv
    rw [hrun] at hn
    obtain rfl : t=s' := Option.some.inj hn
    exact ⟨hshape,hc.mpr hok⟩
  · cases hn

/-- Each operation leaves the counts right exactly when its condition holds, and if it then changes
no entry it changes no count; so along any sequence of such operations they stay right. -/
theorem link_counts_iff :
    (∀ (s : Tree ν) (o : Op ν),Sound s → o.valid s=true →
      ∃ e s',o.run s=some (e,s') ∧ (s'.Counted ↔ o.Ok s) ∧
        (o.Ok s → s'.entries=s.entries → s'.nlink=s.nlink)) ∧
    ∀ s : Tree ν,treeMachine.Reach (fun s o => o.Ok s) s → s.Counted := by
  refine ⟨fun s o h hv => ?_,fun s hr => (reach_sound hr).counted⟩
  obtain ⟨e,s',hrun,-,hc⟩ := o.run_spec h hv
  exact ⟨e,s',hrun,hc,fun hok => nlink_eq h.counted (hc.mpr hok)⟩

def fourDirs : Tree ℕ where
  entries :=
    { pairs := {((2,.dot),2),((2,.dotdot),2),((2,.name 0),11),((2,.name 1),12),
        ((11,.dot),11),((11,.dotdot),2),((11,.name 5),13),
        ((12,.dot),12),((12,.dotdot),2),((13,.dot),13),((13,.dotdot),11)}
      unique := by decide }
  nlink i := if i=2 then 4 else if i=11 then 3 else if i=12 ∨ i=13 then 2 else 0
  isDir i := decide (i=2 ∨ i=11 ∨ i=12 ∨ i=13)

theorem fourDirs_sound : Sound fourDirs where
  home d n j h := by
    have hall : ∀ a∈fourDirs.entries.pairs,fourDirs.isDir a.1.1=true ∧
        ((a.1.1,Name.dot),a.1.1)∈fourDirs.entries.pairs ∧
        ∃ b∈fourDirs.entries.pairs,b.1=(a.1.1,Name.dotdot) := by decide
    obtain ⟨hd,hdot,⟨k,p⟩,hp,rfl⟩ := hall _ h
    exact ⟨hd,hdot,p,hp⟩
  dots k d h hd := by
    have hall : ∀ a∈fourDirs.entries.pairs,fourDirs.isDir a.2=true →
        ((a.2,Name.dot),a.2)∈fourDirs.entries.pairs := by decide
    exact hall _ h hd
  parents d p h := by
    have hall : ∀ a∈fourDirs.entries.pairs,a.1.2=.dotdot → fourDirs.isDir a.2=true := by decide
    exact hall _ h rfl
  counted i := by
    have hall : ∀ i<14,(fourDirs.nlink i).toInt=fourDirs.entries.count i := by decide
    by_cases hi : i<14
    · exact hall i hi
    have hnone : fourDirs.entries.count i=0 := by
      have hlt : ∀ a∈fourDirs.entries.pairs,a.2<14 := by decide
      apply Finset.card_eq_zero.mpr
      apply Finset.filter_eq_empty_iff.mpr
      intro a ha he
      exact hi (he ▸ hlt a ha)
    have hzero : fourDirs.nlink i=0 := by
      have h2 : i≠2 := by omega
      have h11 : i≠11 := by omega
      have h12 : ¬(i=12 ∨ i=13) := by omega
      simp [fourDirs,h2,h11,h12]
    rw [hnone,hzero]
    rfl

def noFaults : Faults :=
  ⟨false,false,false,false,false,false,false,false,false,false,false,false,false⟩

def moveUp : Rename ℕ := ⟨11,13,.name 5,12,none,.name 6⟩

theorem link_counts_moveUp :
    (Op.rename noFaults moveUp).valid fourDirs=true ∧
      ∃ e s',(Op.rename noFaults moveUp).run fourDirs=some (e,s') ∧ s'.Counted ∧
        s'.nlink 11=2 ∧ s'.nlink 12=3 := by
  have hv : (Op.rename noFaults moveUp).valid fourDirs=true := by decide
  obtain ⟨e,s',hrun,hc,-⟩ := (link_counts_iff (ν := ℕ)).1 fourDirs _ fourDirs_sound hv
  have hok : (Op.rename noFaults moveUp).Ok fourDirs :=
    fun _ _ _ _ _ _ => ⟨rfl,fun _ => ⟨rfl,by decide⟩⟩
  refine ⟨hv,e,s',hrun,hc.mpr hok,?_⟩
  have hs : some (e,s')=(Op.rename noFaults moveUp).run fourDirs := hrun.symm
  cases hs
  decide

/-- A failed `ext2_update` of the parent, in a mkdir and in a rename; a failed write of ".."; and a
second move of a directory whose first move left the old entry behind. -/
theorem counts_drift :
    Sound fourDirs ∧
    ((Op.mkdir { noFaults with updateParent := true } 2 20 7).run fourDirs).map
      (fun x => (x.1,x.2.nlink 2,x.2.entries.count 2))=some (true,5,4) ∧
    ((Op.rename { noFaults with updateParent := true } moveUp).run fourDirs).map
      (fun x => (x.1,x.2.nlink 12,x.2.entries.count 12))=some (true,3,2) ∧
    ((Op.rename { noFaults with dotdot := true } moveUp).run fourDirs).map
      (fun x => (x.1,x.2.nlink 11,x.2.entries.count 11))=some (false,2,3) ∧
    ((treeMachine.exec [.rename { noFaults with dirremove := true } moveUp,
      .rename noFaults ⟨11,13,.name 5,2,none,.name 8⟩] fourDirs).map
      (fun s => (s.nlink 11,s.entries.count 11,s.nlink 12,s.entries.count 12)))=
        some (1,2,3,2) := by
  refine ⟨fourDirs_sound,?_,?_,?_,?_⟩
  all_goals decide +kernel

end Ext2fsX.Links
