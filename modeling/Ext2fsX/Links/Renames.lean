import Ext2fsX.Links.Operations

namespace Ext2fsX.Links

open Framework
open Links.Tree

namespace Rename

variable {ν : Type} {r : Rename ν} {s t : Tree ν} {f : Faults} {x : ℕ}

def DotdotOk (r : Rename ν) (s : Tree ν) (f : Faults) : Prop :=
  f.dotdot=false ∧ ((r.fvp,Name.dotdot),r.fdvp)∈s.entries.pairs

structure Ready (r : Rename ν) (s : Tree ν) : Prop extends Shaped s where
  source : ((r.fdvp,r.fname),r.fvp)∈s.entries.pairs
  plain : ∃ m,r.fname=.name m
  toDir : s.Home r.tdvp
  apart : s.isDir r.fvp=true → r.fdvp≠r.fvp

theorem Ready.congr (h : Ready r s) (he : t.entries=s.entries) (hd : t.isDir=s.isDir) :
    Ready r t := by
  cases s
  subst he hd
  exact ⟨h.toShaped.congr rfl rfl,h.source,h.plain,h.toDir,h.apart⟩

theorem Ready.setLinks (h : Ready r s) (i : ℕ) (v : Int16) : Ready r (s.setLinks i v) :=
  h.congr rfl rfl

theorem Ready.truncate (h : Ready r s) (hz : s.nlink x=0) (hc : (s.truncate x).bal x=0)
    (hf : r.fdvp≠x) (ht : r.tdvp≠x) : Ready r (s.truncate x) := by
  have hkept {d l : ℕ} {k : Name ν} (hd : d≠x) (hm : ((d,k),l)∈s.entries.pairs) :
      ((d,k),l)∈(s.truncate x).entries.pairs :=
    RefMap.mem_keep.mpr ⟨hm,by simpa using hd⟩
  obtain ⟨hdir,hdot,p,hp⟩ := h.toDir
  exact ⟨h.toShaped.truncate_unlinked hz hc,hkept hf h.source,h.plain,
    ⟨hdir,hkept ht hdot,p,hkept ht hp⟩,h.apart⟩

theorem Ready.sourceHome (h : Ready r s) (hd : s.isDir r.fvp=true) : s.Home r.fvp :=
  h.home_of_ref h.source hd

theorem moves_congr (h : t.isDir=s.isDir) : r.moves t=r.moves s := by
  unfold moves
  rw [h]

theorem dotdotOk_congr (h : t.entries=s.entries) : r.DotdotOk t f ↔ r.DotdotOk s f := by
  unfold DotdotOk
  rw [h]

theorem dotdotOk_truncate (h : r.fvp≠x) : r.DotdotOk (s.truncate x) f ↔ r.DotdotOk s f := by
  unfold DotdotOk Tree.truncate
  simp [h]

theorem isDir_of_moves (h : r.moves s=true) : s.isDir r.fvp=true ∧ r.fdvp≠r.tdvp := by
  simpa [moves] using h

theorem bal_bad (h : -32768 < s.bal r.fvp) (i : ℕ) : (r.bad s).2.bal i=s.bal i-ind r.fvp i :=
  bal_unbump h i

theorem shaped_bad (h : Shaped s) : Shaped (r.bad s).2 := h.setLinks r.fvp _

theorem counted_bad (hb : ∀ i,s.bal i=ind r.fvp i) : (r.bad s).2.Counted := by
  refine counted_iff.mpr fun i => ?_
  rw [bal_bad (by rw [hb,ind_self]; omega),hb,sub_self]

theorem entries_dropParent : (r.dropParent s).entries=s.entries := by
  unfold dropParent
  split <;> rfl

theorem isDir_dropParent : (r.dropParent s).isDir=s.isDir := by
  unfold dropParent
  split <;> rfl

theorem nlink_dropParent (h : x≠r.tdvp) : (r.dropParent s).nlink x=s.nlink x := by
  unfold dropParent
  split
  · exact Function.update_of_ne h _ _
  · rfl

variable [DecidableEq ν]

theorem bal_unlinkSource (hsrc : ((r.fdvp,r.fname),r.fvp)∈(r.fixDotdot t f).entries.pairs)
    (hlow : -32768<(r.fixDotdot t f).bal r.fvp) (i : ℕ) :
    (r.unlinkSource t f).2.bal i=(r.fixDotdot t f).bal i := by
  unfold unlinkSource
  split
  · rfl
  · have hrem (i : ℕ) : ((r.fixDotdot t f).remove r.fdvp r.fname).bal i=
        (r.fixDotdot t f).bal i+ind r.fvp i := bal_remove hsrc i
    rw [bal_unbump (by rw [hrem,ind_self]; omega),hrem]
    ring

theorem shaped_unlinkSource (h : Shaped (r.fixDotdot t f)) (hplain : ∃ m,r.fname=.name m) :
    Shaped (r.unlinkSource t f).2 := by
  obtain ⟨m,hm⟩ := hplain
  unfold unlinkSource
  split
  · exact h
  · rw [hm]
    exact Shaped.setLinks h.remove r.fvp _

theorem unlinkSource_stay (h : Ready r t) (hm : r.moves t=false) (hb : ∀ i,t.bal i=0) :
    Shaped (r.unlinkSource t f).2 ∧ (r.unlinkSource t f).2.Counted := by
  have hfix : r.fixDotdot t f=t := by simp [fixDotdot,hm]
  refine ⟨shaped_unlinkSource (by rw [hfix]; exact h.toShaped) h.plain,counted_iff.mpr fun i => ?_⟩
  rw [bal_unlinkSource (by rw [hfix]; exact h.source) (by rw [hfix,hb]; omega),hfix,hb]

theorem unlinkSource_move (h : Ready r t) (hm : r.moves t=true) (hb : ∀ i,t.bal i=ind r.tdvp i) :
    Shaped (r.unlinkSource t f).2 ∧ ((r.unlinkSource t f).2.Counted ↔ r.DotdotOk t f) := by
  obtain ⟨hdir,hne⟩ := isDir_of_moves hm
  obtain ⟨m,hplain⟩ := h.plain
  obtain ⟨-,-,q,hq⟩ := h.sourceHome hdir
  have hun (i : ℕ) : (t.unbump r.fdvp).bal i=ind r.tdvp i-ind r.fdvp i := by
    have hbound := ind_bounds r.tdvp r.fdvp
    rw [bal_unbump (by rw [hb]; omega),hb]
  have hlow : -32768 < ind r.tdvp r.fvp-ind r.fdvp r.fvp := by
    have h1 := ind_bounds r.tdvp r.fvp
    have h2 := ind_bounds r.fdvp r.fvp
    omega
  by_cases hf : f.dotdot=true
  · have hfix : r.fixDotdot t f=t.unbump r.fdvp := by simp [fixDotdot,hm,hf]
    refine ⟨shaped_unlinkSource (by rw [hfix]; exact h.toShaped.setLinks _ _) h.plain,
      iff_of_false (not_counted r.fdvp ?_) (by simp [DotdotOk,hf])⟩
    rw [bal_unlinkSource (by rw [hfix]; exact h.source) (by rw [hfix,hun]; exact hlow),hfix,hun,
      ind_ne (Ne.symm hne),ind_self]
    decide
  have hf : f.dotdot=false := by simpa using hf
  have hfix : r.fixDotdot t f=(t.unbump r.fdvp).enter r.fvp .dotdot r.tdvp := by
    simp [fixDotdot,hm,hf,RefMap.Has.of_mem hq]
  have hturn (i : ℕ) : (r.fixDotdot t f).bal i=ind q i-ind r.fdvp i := by
    rw [hfix,bal_rewrite (s := t.unbump r.fdvp) hq,hun]
    ring
  have hsrc : ((r.fdvp,r.fname),r.fvp)∈(r.fixDotdot t f).entries.pairs := by
    rw [hfix]
    exact RefMap.mem_put.mpr (.inr ⟨h.source,by simp [hplain]⟩)
  have hout (i : ℕ) : (r.unlinkSource t f).2.bal i=ind q i-ind r.fdvp i := by
    have h1 := ind_bounds q r.fvp
    have h2 := ind_bounds r.fdvp r.fvp
    rw [bal_unlinkSource hsrc (by rw [hturn]; omega),hturn]
  have hshape : Shaped (r.fixDotdot t f) := by
    rw [hfix]
    exact Shaped.enter (h.toShaped.setLinks _ _) nofun (h.sourceHome hdir) (fun _ => h.toDir.2.1)
      (fun _ => h.toDir.1)
  refine ⟨shaped_unlinkSource hshape h.plain,?_⟩
  rw [counted_iff]
  constructor
  · intro hc
    refine ⟨hf,?_⟩
    have hz := hc q
    rw [hout,ind_self] at hz
    by_cases hqe : r.fdvp=q
    · rw [hqe]
      exact hq
    · rw [ind_ne hqe] at hz
      exact absurd hz (by decide)
  · rintro ⟨-,hmem⟩ i
    rw [hout,RefMap.eq_of_mem hq hmem,sub_self]

theorem Ready.enter (h : Ready r s) (hn : ∃ m,r.tname=.name m) :
    Ready r (s.enter r.tdvp r.tname r.fvp) := by
  obtain ⟨m,hm⟩ := hn
  have hshape : Shaped (s.enter r.tdvp r.tname r.fvp) := by
    rw [hm]
    exact h.toShaped.enter nofun h.toDir (fun hd => (h.sourceHome hd).2.1) nofun
  refine ⟨hshape,?_,h.plain,hshape.home r.tdvp r.tname r.fvp (RefMap.mem_put.mpr (.inl ⟨rfl,rfl⟩)),
    h.apart⟩
  by_cases hk : (r.fdvp,r.fname)=(r.tdvp,r.tname)
  · exact RefMap.mem_put.mpr (.inl ⟨hk,rfl⟩)
  · exact RefMap.mem_put.mpr (.inr ⟨h.source,hk⟩)

theorem dotdotOk_enter (hn : ∃ m,r.tname=.name m) :
    r.DotdotOk (s.enter r.tdvp r.tname r.fvp) f ↔ r.DotdotOk s f := by
  obtain ⟨m,hm⟩ := hn
  unfold DotdotOk Tree.enter
  simp [hm]

def FreeOk (r : Rename ν) (s : Tree ν) (f : Faults) : Prop :=
  s.full r.tdvp=false → f.updateParent=false ∧ (f.direnter=false → r.DotdotOk s f)

theorem intoFree_spec (h : Ready r s) (hb : ∀ i,s.bal i=ind r.fvp i) (hn : ∃ m,r.tname=.name m)
    (hfree : ¬s.entries.Has (r.tdvp,r.tname)) :
    Shaped (r.intoFree s f).2 ∧ ((r.intoFree s f).2.Counted ↔ (r.moves s=true → r.FreeOk s f)) := by
  have hbad := counted_bad hb
  unfold intoFree FreeOk
  split
  case isTrue hm =>
    split
    case isTrue hfull => exact ⟨shaped_bad h.toShaped,iff_of_true hbad (by simp [hfull])⟩
    case isFalse hfull =>
      have hfull : s.full r.tdvp=false := by simpa using hfull
      have hbump (i : ℕ) : (s.bump r.tdvp).bal i=ind r.fvp i+ind r.tdvp i := by
        rw [bal_bump (lt_of_not_full hfull),hb]
      have hlow (i : ℕ) : -32768<(s.bump r.tdvp).bal i := by
        have h1 := ind_bounds r.fvp i
        have h2 := ind_bounds r.tdvp i
        rw [hbump]
        omega
      split
      case isTrue hu =>
        refine ⟨shaped_bad (h.toShaped.setLinks _ _),
          iff_of_false (not_counted r.tdvp ?_) (by simp [hm,hfull,hu])⟩
        rw [bal_bad (hlow _),hbump,ind_self]
        omega
      case isFalse hu =>
        split
        case isTrue he =>
          refine ⟨shaped_bad ((h.toShaped.setLinks _ _).setLinks _ _),
            iff_of_true (counted_bad fun i => ?_) (by simp [he,hu])⟩
          rw [bal_unbump (hlow _),hbump]
          ring
        case isFalse he =>
          have hready : Ready r ((s.bump r.tdvp).enter r.tdvp r.tname r.fvp) :=
            Ready.enter (h.setLinks r.tdvp _) hn
          obtain ⟨hs,hc⟩ := unlinkSource_move (f := f) hready hm
            (fun i => by rw [bal_enter (s := s.bump r.tdvp) hfree,hbump]; ring)
          have hsame : r.DotdotOk (s.bump r.tdvp) f ↔ r.DotdotOk s f := Iff.rfl
          refine ⟨hs,hc.trans ((dotdotOk_enter hn).trans (hsame.trans ?_))⟩
          simp [hm,hfull,hu,he]
  case isFalse hm =>
    have hm : r.moves s=false := by simpa using hm
    split
    · exact ⟨shaped_bad h.toShaped,iff_of_true hbad (by simp [hm])⟩
    · obtain ⟨hs,hc⟩ := unlinkSource_stay (f := f) (h.enter hn) hm
        (fun i => by rw [bal_enter hfree,hb,sub_self])
      exact ⟨hs,iff_of_true hc (by simp [hm])⟩

section Used

theorem nlink_of_empty (h : Shaped s) (hb : s.bal x=0) (hx : ((r.tdvp,r.tname),x)∈s.entries.pairs)
    (hn : ∃ m,r.tname=.name m) (hdir : s.isDir x=true) (he : s.dirempty f x r.tdvp=true)
    (hle : ¬2 < s.nlink x) : x≠r.tdvp ∧ s.nlink x=2 := by
  obtain ⟨m,hm⟩ := hn
  have hne : x≠r.tdvp := by
    rintro rfl
    have hk := dirempty_spec he hx
    simp [hm] at hk
  refine ⟨hne,?_⟩
  have hdot := h.dots _ x hx hdir
  have hcount := RefMap.count_del hdot x
  have hpos : 0<(s.entries.del (x,Name.dot)).count x :=
    RefMap.count_pos (RefMap.mem_del.mpr ⟨hx,by simp [hm]⟩)
  rw [Int16.lt_iff_toInt_lt] at hle
  unfold Tree.bal at hb
  rw [ind_self] at hcount
  apply Int16.toInt_inj.mp
  have htwo : (2 : Int16).toInt=2 := rfl
  omega

theorem bal_turned (hb : ∀ i,s.bal i=ind r.fvp i) (hx : ((r.tdvp,r.tname),x)∈s.entries.pairs)
    (hfd : s.isDir r.fvp=true) (i : ℕ) :
    (r.dropParent (s.enter r.tdvp r.tname r.fvp)).bal i=
      ind x i-if r.moves s then 0 else ind r.tdvp i := by
  have hrew (i : ℕ) : (s.enter r.tdvp r.tname r.fvp).bal i=ind x i := by
    rw [bal_rewrite hx,hb]
    ring
  have hmv : r.moves (s.enter r.tdvp r.tname r.fvp)=r.moves s := rfl
  unfold dropParent
  rw [hmv,show (s.enter r.tdvp r.tname r.fvp).isDir r.fvp=true from hfd]
  cases r.moves s with
  | true => simp [hrew]
  | false =>
    have hlow := ind_bounds x r.tdvp
    simp only [Bool.not_false,Bool.and_true,if_true,Bool.false_eq_true,if_false]
    rw [bal_unbump (by rw [hrew]; omega),hrew]

theorem replaced_dir (h : Ready r s) (hb : ∀ i,s.bal i=ind r.fvp i)
    (hx : ((r.tdvp,r.tname),x)∈s.entries.pairs) (hn : ∃ m,r.tname=.name m) (hne : x≠r.fvp)
    (hdir : s.isDir x=true) (hfd : s.isDir r.fvp=true) (he : s.dirempty f x r.tdvp=true)
    (hle : ¬2 < s.nlink x) :
    let t := ((r.dropParent (s.enter r.tdvp r.tname r.fvp)).unbump x).unbump x
    t.nlink x=0 ∧ Ready r (t.truncate x) ∧
      ∀ i,(t.truncate x).bal i=if r.moves s then ind r.tdvp i else 0 := by
  intro t
  obtain ⟨hxt,htwo⟩ := nlink_of_empty h.toShaped (by rw [hb,ind_ne (Ne.symm hne)]) hx hn hdir he hle
  have hentries : t.entries=(s.enter r.tdvp r.tname r.fvp).entries := entries_dropParent
  have hkeep {l : ℕ} {k : Name ν} : ((x,k),l)∈t.entries.pairs ↔ ((x,k),l)∈s.entries.pairs := by
    rw [hentries]
    simp [Tree.enter,hxt]
  have hzero : t.nlink x=0 := by
    have hthen : (r.dropParent (s.enter r.tdvp r.tname r.fvp)).nlink x=2 :=
      (nlink_dropParent hxt).trans htwo
    simp only [t,Tree.unbump,Tree.setLinks,Function.update_self,hthen]
    decide
  have hbt (i : ℕ) : t.bal i=-ind x i-if r.moves s then 0 else ind r.tdvp i := by
    have h1 := ind_bounds r.tdvp x
    have hone (i : ℕ) : ((r.dropParent (s.enter r.tdvp r.tname r.fvp)).unbump x).bal i=
        -if r.moves s then 0 else ind r.tdvp i := by
      have hu := bal_turned hb hx hfd
      rw [bal_unbump (by rw [hu,ind_self]; split <;> omega),hu]
      ring
    rw [bal_unbump (by rw [hone]; split <;> omega),hone]
    ring
  have hcut (i : ℕ) : (t.truncate x).bal i=if r.moves s then ind r.tdvp i else 0 := by
    have hhome := h.home_of_ref hx hdir
    rw [bal_truncate (hkeep.mpr hhome.2.1) (hkeep.mpr (dotdot_of_empty he hhome))
      (fun k l hk => (dirempty_spec he (hkeep.mp hk)).imp_right And.left),hbt]
    split <;> ring
  refine ⟨hzero,Ready.truncate ((h.enter hn).congr hentries isDir_dropParent) hzero ?_ ?_ hxt.symm,
    hcut⟩
  · rw [hcut,ind_ne hxt.symm,ite_self]
  · -- the source is an entry of its parent, which is thus not empty
    rintro rfl
    obtain ⟨m,hm⟩ := h.plain
    have hk := dirempty_spec he h.source
    simp [hm] at hk

def UsedOk (r : Rename ν) (s : Tree ν) (f : Faults) (x : ℕ) : Prop :=
  r.keeps s f x=false → f.dirrewrite=false → r.DotdotOk s f

theorem plain_of_not_keeps (h : Shaped s) (hx : ((r.tdvp,r.tname),x)∈s.entries.pairs)
    (hdot : r.tname≠.dot) (hdd : s.isDir r.fvp=true → r.tname≠.dotdot) (hk : r.keeps s f x=false) : ∃ m,r.tname=.name m := by
  unfold keeps at hk
  cases hn : r.tname with
  | dot => exact absurd hn hdot
  | dotdot =>
    rw [if_pos (h.parents r.tdvp x (hn ▸ hx))] at hk
    simp only [Bool.or_eq_false_iff,Bool.not_eq_false'] at hk
    exact absurd hn (hdd hk.2)
  | name m => exact ⟨m,rfl⟩

theorem intoUsed_spec (h : Ready r s) (hb : ∀ i,s.bal i=ind r.fvp i)
    (hx : ((r.tdvp,r.tname),x)∈s.entries.pairs) (hdot : r.tname≠.dot)
    (hdd : s.isDir r.fvp=true → r.tname≠.dotdot) (hne : x≠r.fvp) :
    ∃ e s',r.intoUsed s f x=some (e,s') ∧ Shaped s' ∧
      (s'.Counted ↔ (r.moves s=true → r.UsedOk s f x)) := by
  unfold intoUsed UsedOk
  split
  case isTrue hstop =>
    refine ⟨_,_,rfl,shaped_bad h.toShaped,iff_of_true (counted_bad hb) fun _ hk hf => ?_⟩
    simp [hk,hf] at hstop
  case isFalse hgo =>
    have hgo : r.keeps s f x=false ∧ f.dirrewrite=false := by simpa using hgo
    have hn := plain_of_not_keeps h.toShaped hx hdot hdd hgo.1
    have hkeeps := hgo.1
    unfold keeps at hkeeps
    split
    case isTrue hfd =>
      -- both are directories
      have hdir : s.isDir x=true := by
        by_contra hd
        rw [if_neg hd,hfd] at hkeeps
        cases hkeeps
      rw [if_pos hdir] at hkeeps
      simp only [Bool.or_eq_false_iff,Bool.not_eq_false',decide_eq_false_iff_not] at hkeeps
      obtain ⟨hzero,hready,hcut⟩ := replaced_dir h hb hx hn hne hdir hfd hkeeps.1.1 hkeeps.1.2
      rw [if_neg (not_not.mpr hzero)]
      have hmv : r.moves ((((r.dropParent (s.enter r.tdvp r.tname r.fvp)).unbump x).unbump
          x).truncate x)=r.moves s := moves_congr isDir_dropParent
      refine ⟨_,_,rfl,?_⟩
      cases hm : r.moves s with
      | true =>
        obtain ⟨hs,hc⟩ := unlinkSource_move (f := f) hready (hmv.trans hm)
          (fun i => by rw [hcut,hm,if_pos rfl])
        refine ⟨hs,hc.trans ?_⟩
        have hsame : r.DotdotOk ((r.dropParent (s.enter r.tdvp r.tname r.fvp)).unbump x |>.unbump x)
            f ↔ r.DotdotOk (s.enter r.tdvp r.tname r.fvp) f := dotdotOk_congr entries_dropParent
        rw [dotdotOk_truncate hne.symm,hsame,dotdotOk_enter hn]
        simp [hgo.1,hgo.2]
      | false =>
        obtain ⟨hs,hc⟩ := unlinkSource_stay (f := f) hready (hmv.trans hm)
          (fun i => by rw [hcut,hm,if_neg (by decide)])
        exact ⟨hs,iff_of_true hc (by simp)⟩
    case isFalse hfd =>
      have hfd : s.isDir r.fvp=false := by simpa using hfd
      have hm : r.moves s=false := by simp [moves,hfd]
      have hdrop : r.dropParent (s.enter r.tdvp r.tname r.fvp)=s.enter r.tdvp r.tname r.fvp := by
        unfold dropParent
        rw [show (s.enter r.tdvp r.tname r.fvp).isDir r.fvp=false from hfd]
        simp
      have hrew (i : ℕ) : (s.enter r.tdvp r.tname r.fvp).bal i=ind x i := by
        rw [bal_rewrite hx,hb]
        ring
      rw [hdrop]
      obtain ⟨hs,hc⟩ := unlinkSource_stay (f := f) ((h.enter hn).setLinks x _) hm (fun i => by
          change (Tree.unbump _ x).bal i=0
          rw [bal_unbump (by rw [hrew,ind_self]; omega),hrew,sub_self])
      exact ⟨_,_,rfl,hs,iff_of_true hc (by simp [hm])⟩

end Used

section Run

/-- Only a directory that goes to a new parent is concerned, and only if the call gets that far. -/
def Ok (r : Rename ν) (s : Tree ν) (f : Faults) : Prop :=
  r.stop s f=none → f.update=false → r.moves s=true → r.tdvp≠r.fvp → f.checkpath=false →
    match r.tvp with
    | none => r.FreeOk s f
    | some x => r.UsedOk s f x

theorem stop_none (h : r.stop s f=none) :
    r.tvp≠some r.fvp ∧ (s.nlink r.fvp).toInt<32767 ∧ (s.isDir r.fvp=true →
      r.fname≠.dot ∧ r.fdvp≠r.fvp ∧ r.fname≠.dotdot ∧ r.tname≠.dotdot) := by
  unfold stop at h
  split at h
  · cases h
  split at h
  · cases h
  case isFalse hsame =>
    split at h
    · cases h
    case isFalse hmax =>
      split at h
      · cases h
      split at h
      · cases h
      case isFalse hnames =>
        rw [Int16.le_iff_toInt_le] at hmax
        refine ⟨hsame,not_le.mp hmax,fun hdir => ?_⟩
        simpa [hdir,and_assoc] using hnames

theorem ready_of_stop (h : Sound s) (hstop : r.stop s f=none)
    (hsrc : ((r.fdvp,r.fname),r.fvp)∈s.entries.pairs) (hto : s.Dir r.tdvp) : Ready r s := by
  obtain ⟨-,-,hnames⟩ := stop_none hstop
  refine ⟨h.toShaped,hsrc,?_,h.home_of_dir hto,fun hd => (hnames hd).2.1⟩
  cases hn : r.fname with
  | dot =>
    -- "." of the parent is the parent itself
    obtain ⟨hdir,hdot,-⟩ := h.home _ _ _ hsrc
    rw [hn] at hsrc
    rw [RefMap.eq_of_mem hdot hsrc] at hdir
    exact absurd hn (hnames hdir).1
  | dotdot =>
    rw [hn] at hsrc
    exact absurd hn (hnames (h.parents _ _ hsrc)).2.2.1
  | name m => exact ⟨m,rfl⟩

omit [DecidableEq ν] in
theorem plain_of_free (h : s.Home r.tdvp) (hfree : ¬s.entries.Has (r.tdvp,r.tname)) :
    ∃ m,r.tname=.name m := by
  obtain ⟨-,hdot,p,hp⟩ := h
  cases hn : r.tname with
  | dot => exact absurd (.of_mem (hn ▸ hdot)) hfree
  | dotdot => exact absurd (.of_mem (hn ▸ hp)) hfree
  | name m => exact ⟨m,rfl⟩

theorem keeps_bump (h : x≠r.fvp) : r.keeps (s.bump r.fvp) f x=r.keeps s f x := by
  unfold keeps
  rw [show (s.bump r.fvp).nlink x=s.nlink x from Function.update_of_ne h _ _]
  rfl

omit [DecidableEq ν] in
theorem full_bump (h : r.tdvp≠r.fvp) : (s.bump r.fvp).full r.tdvp=s.full r.tdvp := by
  unfold full
  rw [show (s.bump r.fvp).nlink r.tdvp=s.nlink r.tdvp from Function.update_of_ne h _ _]

def Target (r : Rename ν) (s : Tree ν) : Prop :=
  match r.tvp with
  | none => ¬s.entries.Has (r.tdvp,r.tname)
  | some x => ((r.tdvp,r.tname),x)∈s.entries.pairs

theorem run_spec (h : Sound s) (hsrc : ((r.fdvp,r.fname),r.fvp)∈s.entries.pairs)
    (hto : s.Dir r.tdvp) (hdot : r.tname≠.dot) (htgt : r.Target s) :
    ∃ e s',r.run s f=some (e,s') ∧ Shaped s' ∧ (s'.Counted ↔ r.Ok s f) := by
  unfold run Ok
  cases hstop : r.stop s f with
  | some e => exact ⟨e,s,rfl,h.toShaped,iff_of_true h.counted nofun⟩
  | none =>
    obtain ⟨hsame,hmax,hnames⟩ := stop_none hstop
    have hready : Ready r (s.bump r.fvp) := (ready_of_stop h hstop hsrc hto).setLinks _ _
    have hb (i : ℕ) : (s.bump r.fvp).bal i=ind r.fvp i := by
      rw [bal_bump hmax,h.bal,zero_add]
    have hmv : r.moves (s.bump r.fvp)=r.moves s := rfl
    unfold move
    by_cases hgo : (f.update || (r.moves (s.bump r.fvp) &&
        (decide (r.tdvp=r.fvp) || f.checkpath)))=true
    · rw [if_pos hgo]
      refine ⟨_,_,rfl,shaped_bad hready.toShaped,iff_of_true (counted_bad hb) ?_⟩
      intro _ hu hm hne hp
      simp [hu,hmv,hm,hne,hp] at hgo
    rw [if_neg hgo]
    have hgo : f.update=false ∧ (r.moves s=true → r.tdvp≠r.fvp ∧ f.checkpath=false) := by
      simpa [hmv] using hgo
    unfold Target at htgt
    cases ht : r.tvp with
    | none =>
      rw [ht] at htgt
      obtain ⟨hs,hc⟩ := intoFree_spec (f := f) hready hb
        (plain_of_free (h.home_of_dir hto) htgt) htgt
      refine ⟨_,_,rfl,hs,hc.trans ?_⟩
      constructor
      · intro hok _ _ hm hne _ hfull
        exact hok hm (by rwa [full_bump hne])
      · intro hok hm hfull
        obtain ⟨hne,hp⟩ := hgo.2 hm
        exact hok rfl hgo.1 hm hne hp (by rwa [full_bump hne] at hfull)
    | some x =>
      rw [ht] at htgt
      have hne : x≠r.fvp := by
        rintro rfl
        exact hsame ht
      obtain ⟨e,s',hrun,hs,hc⟩ := intoUsed_spec (f := f) hready hb htgt hdot
        (fun hd => (hnames hd).2.2.2) hne
      refine ⟨e,s',hrun,hs,hc.trans ?_⟩
      constructor
      · intro hok _ _ hm _ _ hk
        exact hok hm (by rwa [keeps_bump hne])
      · intro hok hm hk
        obtain ⟨hne',hp⟩ := hgo.2 hm
        exact hok rfl hgo.1 hm hne' hp (by rwa [keeps_bump hne] at hk)

end Run

end Rename

end Ext2fsX.Links
