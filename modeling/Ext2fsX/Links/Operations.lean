import Ext2fsX.Links.Counts

namespace Ext2fsX.Links

open Framework
open Links.Tree

variable {ν : Type} {s : Tree ν} {f : Faults} {dvp vp ip p : ℕ} {n : ν}

theorem ind_bounds (i j : ℕ) : 0 ≤ ind i j ∧ ind i j≤1 := by
  unfold ind
  split <;> omega

theorem Tree.not_counted (i : ℕ) (h : s.bal i≠0) : ¬s.Counted := fun hc => h (counted_iff.mp hc i)

theorem Sound.bal (h : Sound s) (i : ℕ) : s.bal i=0 := counted_iff.mp h.counted i

theorem Tree.bal_alloc (hz : s.nlink ip=0) (dir : Bool) {v : Int16} {c : ℤ} (hv : v.toInt=c)
    (i : ℕ) : (s.alloc ip dir v).bal i=s.bal i+c*ind ip i := by
  apply bal_setLinks
  rw [hz,hv,Int16.toInt_zero,zero_add]

theorem Tree.bal_discard {c : ℤ} (hl : (s.nlink ip).toInt=c)
    (hnone : ∀ n j,((ip,n),j)∉s.entries.pairs) (i : ℕ) :
    (s.discard ip).bal i=s.bal i-c*ind ip i := by
  unfold discard
  rw [truncate_of_none (s := s.setLinks ip 0) hnone,
    bal_setLinks (-c) (by rw [hl,Int16.toInt_zero,add_neg_cancel])]
  ring

theorem Shaped.discard (h : Shaped s) (hno : ∀ k,(k,ip)∈s.entries.pairs → k.1=ip) :
    Shaped (s.discard ip) :=
  Shaped.truncate (h.setLinks ip 0) hno

variable [DecidableEq ν]

theorem Tree.bal_discard_dir {c : ℤ} (hl : (s.nlink ip).toInt=c)
    (hdot : ((ip,.dot),ip)∈s.entries.pairs) (hdotdot : ((ip,.dotdot),p)∈s.entries.pairs)
    (honly : ∀ n j,((ip,n),j)∈s.entries.pairs → n=.dot ∨ n=.dotdot) (i : ℕ) :
    (s.discard ip).bal i=s.bal i-c*ind ip i+ind ip i+ind p i := by
  unfold discard
  rw [bal_truncate (s := s.setLinks ip 0) hdot hdotdot honly,
    bal_setLinks (-c) (by rw [hl,Int16.toInt_zero,add_neg_cancel])]
  ring

theorem Sound.makeinode (h : Sound s) (hd : s.Dir dvp) (hn : ¬s.entries.Has (dvp,.name n))
    (hz : s.nlink ip=0) : Sound (s.makeinode f dvp ip n).2 := by
  obtain ⟨hno,hnone⟩ := h.free hz
  have hne : dvp≠ip := fun he => hd.2 (he ▸ hz)
  have hshape : Shaped (s.alloc ip false 1) := h.alloc hno false 1
  have hbal (i : ℕ) : (s.alloc ip false 1).bal i=s.bal i+1*ind ip i := bal_alloc hz false rfl i
  unfold Tree.makeinode
  split
  · exact h
  split
  · refine ⟨hshape.discard (fun k hk => absurd hk (hno k)),counted_iff.mpr fun i => ?_⟩
    have hl : ((s.alloc ip false 1).nlink ip).toInt=1 := by simp [alloc,Tree.setLinks]
    rw [bal_discard hl hnone,hbal,h.bal]
    ring
  refine ⟨hshape.enter nofun ?_ ?_ nofun,counted_iff.mpr fun i => ?_⟩
  · obtain ⟨hdir,hrest⟩ := h.home_of_dir hd
    exact ⟨by simpa [alloc,Function.update_of_ne hne] using hdir,hrest⟩
  · intro hdir
    simp [alloc] at hdir
  · change ((s.alloc ip false 1).enter dvp (.name n) ip).bal i=0
    rw [bal_enter (s := s.alloc ip false 1) hn,hbal,h.bal]
    ring

theorem Sound.link (h : Sound s) (hd : s.Dir dvp) (hn : ¬s.entries.Has (dvp,.name n))
    (hv : s.nlink vp≠0) : Sound (s.link f vp dvp n).2 := by
  unfold Tree.link
  split
  · exact h
  case isFalse hgo =>
    have hgo : s.full vp=false ∧ f.refused=false := by simpa using hgo
    have hbump (i : ℕ) : (s.bump vp).bal i=ind vp i := by
      rw [bal_bump (lt_of_not_full hgo.1),h.bal,zero_add]
    split
    · refine ⟨(h.setLinks vp _).setLinks vp _,counted_iff.mpr fun i => ?_⟩
      rw [bal_unbump (by rw [hbump,ind_self]; omega),hbump,sub_self]
    · refine ⟨Shaped.enter (h.setLinks vp _) nofun (h.home_of_dir hd) ?_ nofun,counted_iff.mpr fun i => ?_⟩
      · intro hdir
        obtain ⟨k,hk⟩ := h.exists_ref hv
        exact h.dots k vp hk hdir
      · rw [bal_enter (s := s.bump vp) hn,hbump,sub_self]

theorem Sound.unlink (h : Sound s) (he : ((dvp,.name n),vp)∈s.entries.pairs) :
    Sound (s.unlink f dvp vp n).2 := by
  unfold Tree.unlink
  split
  · exact h
  · have hrem (i : ℕ) : (s.remove dvp (.name n)).bal i=ind vp i := by
      rw [bal_remove he,h.bal,zero_add]
    refine ⟨Shaped.setLinks h.remove vp _,counted_iff.mpr fun i => ?_⟩
    rw [bal_unbump (by rw [hrem,ind_self]; omega),hrem,sub_self]

section Mkdir

/-- It does not get as far as the parent's `ext2_update`, or that succeeds. -/
def MkdirOk (s : Tree ν) (f : Faults) (dvp : ℕ) : Prop :=
  s.full dvp=true ∨ f.valloc=true ∨ f.update=true ∨ f.updateParent=false

theorem Tree.mem_template {x j dp : ℕ} {k : Name ν} : ((x,k),j)∈(s.template dp ip).entries.pairs ↔
    (x=ip ∧ k=.dotdot ∧ j=dp) ∨ (x=ip ∧ k=.dot ∧ j=ip) ∨
      (((x,k),j)∈s.entries.pairs ∧ ¬(x=ip ∧ (k=.dot ∨ k=.dotdot))) := by
  simp only [template,Tree.enter,RefMap.mem_put,Prod.mk.injEq,ne_eq]
  constructor
  · rintro (⟨⟨rfl,rfl⟩,rfl⟩ | ⟨⟨⟨rfl,rfl⟩,rfl⟩ | ⟨hm,h1⟩,h2⟩)
    · exact .inl ⟨rfl,rfl,rfl⟩
    · exact .inr (.inl ⟨rfl,rfl,rfl⟩)
    · refine .inr (.inr ⟨hm,?_⟩)
      rintro ⟨hx,hk | hk⟩
      · exact h1 ⟨hx,hk⟩
      · exact h2 ⟨hx,hk⟩
  · rintro (⟨rfl,rfl,rfl⟩ | ⟨rfl,rfl,rfl⟩ | ⟨hm,hno⟩)
    · exact .inl ⟨⟨rfl,rfl⟩,rfl⟩
    · exact .inr ⟨.inl ⟨⟨rfl,rfl⟩,rfl⟩,by simp⟩
    · exact .inr ⟨.inr ⟨hm,fun h => hno ⟨h.1,.inl h.2⟩⟩,fun h => hno ⟨h.1,.inr h.2⟩⟩

theorem Tree.bal_template (hnone : ∀ k j,((ip,k),j)∉s.entries.pairs) (dp i : ℕ) :
    (s.template dp ip).bal i=s.bal i-ind ip i-ind dp i := by
  have hdot : ¬s.entries.Has (ip,.dot) := by
    rintro ⟨⟨k,j⟩,hm,rfl⟩
    exact hnone _ _ hm
  have hdotdot : ¬(s.enter ip .dot ip).entries.Has (ip,.dotdot) := by
    rintro ⟨⟨k,j⟩,hm,rfl⟩
    obtain ⟨hk,-⟩ | ⟨hm,-⟩ := RefMap.mem_put.mp hm
    · cases (Prod.mk.inj hk).2
    · exact hnone _ _ hm
  unfold template
  rw [bal_enter hdotdot,bal_enter hdot]

theorem Shaped.template (h : Shaped s) (hip : s.isDir ip=true) (hd : s.isDir dvp=true)
    (hdot : ((dvp,.dot),dvp)∈s.entries.pairs) (hnone : ∀ k j,((ip,k),j)∉s.entries.pairs) :
    Shaped (s.template dvp ip) := by
  have hold {x j : ℕ} {k : Name ν} (hm : ((x,k),j)∈s.entries.pairs) :
      ((x,k),j)∈(s.template dvp ip).entries.pairs := by
    refine mem_template.mpr (.inr (.inr ⟨hm,?_⟩))
    rintro ⟨rfl,-⟩
    exact hnone _ _ hm
  have hself : (s.template dvp ip).Home ip := ⟨hip,mem_template.mpr (.inr (.inl ⟨rfl,rfl,rfl⟩)),dvp,
      mem_template.mpr (.inl ⟨rfl,rfl,rfl⟩)⟩
  refine ⟨fun x k j hx => ?_,fun ⟨x,k⟩ e hx he => ?_,fun x q hx => ?_⟩
  · obtain ⟨rfl,-⟩ | ⟨rfl,-⟩ | ⟨hx,-⟩ := mem_template.mp hx
    · exact hself
    · exact hself
    · obtain ⟨hdir,hdt,q,hq⟩ := h.home x k j hx
      exact ⟨hdir,hold hdt,q,hold hq⟩
  · obtain ⟨-,-,rfl⟩ | ⟨-,-,rfl⟩ | ⟨hx,-⟩ := mem_template.mp hx
    · exact hold hdot
    · exact hself.2.1
    · exact hold (h.dots _ e hx he)
  · obtain ⟨-,-,rfl⟩ | ⟨-,hk,-⟩ | ⟨hx,-⟩ := mem_template.mp hx
    · exact hd
    · cases hk
    · exact h.parents x q hx

/-- A tree with the new inode of a directory in it, before anything refers to it. -/
structure NewDir (s : Tree ν) (ip : ℕ) : Prop extends Shaped s where
  isDir : s.isDir ip=true
  links : (s.nlink ip).toInt=2
  bal : ∀ i,s.bal i=2*ind ip i
  noRef : ∀ k,(k,ip)∉s.entries.pairs
  empty : ∀ k j,((ip,k),j)∉s.entries.pairs

omit [DecidableEq ν] in
theorem Sound.newDir (h : Sound s) (hz : s.nlink ip=0) : NewDir (s.alloc ip true 2) ip where
  toShaped := h.alloc (h.free hz).1 true 2
  isDir := Function.update_self _ _ _
  links := by simp [alloc,Tree.setLinks]
  bal i := by rw [bal_alloc hz true (c := 2) rfl,h.bal,zero_add]
  noRef := (h.free hz).1
  empty := (h.free hz).2

/-- After the bump of the parent each failure but the first takes it back. -/
theorem NewDir.mkdirFill (h : NewDir s ip) (hne : dvp≠ip) (hd : s.Home dvp)
    (hmax : (s.nlink dvp).toInt<32767) (hn : ¬s.entries.Has (dvp,.name n)) :
    Shaped (s.mkdirFill f dvp ip n).2 ∧
      ((s.mkdirFill f dvp ip n).2.Counted ↔ f.updateParent=false) := by
  have hbump (i : ℕ) : (s.bump dvp).bal i=2*ind ip i+ind dvp i := by
    rw [bal_bump hmax,h.bal]
  have hlinks : ((s.bump dvp).nlink ip).toInt=2 := by
    rw [show (s.bump dvp).nlink ip=s.nlink ip from Function.update_of_ne hne.symm _ _,h.links]
  have hshape : Shaped (s.bump dvp) := h.setLinks dvp _
  have hno : ∀ k,(k,ip)∈s.entries.pairs → k.1=ip := fun k hk => absurd hk (h.noRef k)
  have htemp (i : ℕ) : ((s.bump dvp).template dvp ip).bal i=ind ip i := by
    rw [bal_template (s := s.bump dvp) h.empty,hbump]
    ring
  have hshape' : Shaped ((s.bump dvp).template dvp ip) :=
    hshape.template h.isDir hd.1 hd.2.1 h.empty
  unfold Tree.mkdirFill
  split
  case isTrue hu =>
    refine ⟨hshape.discard hno,iff_of_false (not_counted dvp ?_) (by simp [hu])⟩
    rw [bal_discard (s := s.bump dvp) hlinks h.empty,hbump,ind_ne hne.symm,ind_self]
    decide
  case isFalse hu =>
    have hu : f.updateParent=false := by simpa using hu
    split
    · refine ⟨Shaped.discard (hshape.setLinks dvp _) hno,iff_of_true (counted_iff.mpr ?_) hu⟩
      intro i
      have hback : (((s.bump dvp).unbump dvp).nlink ip).toInt=2 := by
        rw [← hlinks]
        exact congrArg Int16.toInt (Function.update_of_ne hne.symm _ _)
      rw [bal_discard (s := (s.bump dvp).unbump dvp) hback h.empty,
        bal_unbump (by rw [hbump,ind_ne hne.symm,ind_self]; omega),hbump]
      ring
    split
    · have honly : ∀ k j,((ip,k),j)∈((s.bump dvp).template dvp ip).entries.pairs →
          k=.dot ∨ k=.dotdot := by
        intro k j hm
        obtain ⟨-,hk,-⟩ | ⟨-,hk,-⟩ | ⟨hm,-⟩ := mem_template.mp hm
        · exact .inr hk
        · exact .inl hk
        · exact absurd hm (h.empty k j)
      refine ⟨Shaped.discard (hshape'.setLinks dvp _) ?_,iff_of_true (counted_iff.mpr ?_) hu⟩
      · rintro ⟨x,k⟩ hk
        obtain ⟨rfl,-⟩ | ⟨rfl,-⟩ | ⟨hm,-⟩ := mem_template.mp hk
        · rfl
        · rfl
        · exact absurd hm (h.noRef _)
      intro i
      have hback : ((((s.bump dvp).template dvp ip).unbump dvp).nlink ip).toInt=2 := by
        rw [← hlinks]
        exact congrArg Int16.toInt (Function.update_of_ne hne.symm _ _)
      have hlow : -32768<((s.bump dvp).template dvp ip).bal dvp := by
        have hb := ind_bounds ip dvp
        rw [htemp]
        omega
      rw [bal_discard_dir (s := ((s.bump dvp).template dvp ip).unbump dvp) hback
        (mem_template.mpr (.inr (.inl ⟨rfl,rfl,rfl⟩)))
        (mem_template.mpr (.inl ⟨rfl,rfl,rfl⟩)) honly,bal_unbump hlow,htemp]
      ring
    · have hfresh : ¬((s.bump dvp).template dvp ip).entries.Has (dvp,.name n) := by
        rintro ⟨⟨⟨x,k⟩,j⟩,hm,hk⟩
        obtain ⟨rfl,rfl⟩ := Prod.mk.inj hk
        obtain ⟨-,hk,-⟩ | ⟨-,hk,-⟩ | ⟨hm,-⟩ := mem_template.mp hm
        · cases hk
        · cases hk
        · exact hn (.of_mem hm)
      refine ⟨hshape'.enter nofun ?_ ?_ nofun,iff_of_true (counted_iff.mpr ?_) hu⟩
      · exact hshape'.home dvp .dot dvp (mem_template.mpr (.inr (.inr ⟨hd.2.1,by simp [hne]⟩)))
      · exact fun _ => mem_template.mpr (.inr (.inl ⟨rfl,rfl,rfl⟩))
      · intro i
        rw [bal_enter hfresh,htemp,sub_self]

theorem Sound.mkdir (h : Sound s) (hd : s.Dir dvp) (hn : ¬s.entries.Has (dvp,.name n))
    (hz : s.nlink ip=0) : Shaped (s.mkdir f dvp ip n).2 ∧
      ((s.mkdir f dvp ip n).2.Counted ↔ MkdirOk s f dvp) := by
  have hnew := h.newDir hz
  have hne : dvp≠ip := fun he => hd.2 (he ▸ hz)
  unfold Tree.mkdir MkdirOk
  split
  case isTrue hstop =>
    have hstop : s.full dvp=true ∨ f.valloc=true := by simpa using hstop
    exact ⟨h.toShaped,iff_of_true h.counted (by tauto)⟩
  case isFalse hgo =>
    have hgo : s.full dvp=false ∧ f.valloc=false := by simpa using hgo
    split
    case isTrue hu =>
      refine ⟨hnew.discard (fun k hk => absurd hk (hnew.noRef k)),
        iff_of_true (counted_iff.mpr fun i => ?_) (.inr (.inr (.inl hu)))⟩
      rw [bal_discard hnew.links hnew.empty,hnew.bal,sub_self]
    case isFalse hu =>
      have hlinks : (s.alloc ip true 2).nlink dvp=s.nlink dvp := Function.update_of_ne hne _ _
      obtain ⟨hdir,hrest⟩ := h.home_of_dir hd
      have hhome : (s.alloc ip true 2).Home dvp :=
        ⟨by simpa [alloc,Function.update_of_ne hne] using hdir,hrest⟩
      obtain ⟨hs,hc⟩ := hnew.mkdirFill (f := f) hne hhome
        (by rw [hlinks]; exact lt_of_not_full hgo.1) hn
      refine ⟨hs,hc.trans ?_⟩
      simp [hgo.1,hgo.2,hu]

end Mkdir

section Rmdir

omit [DecidableEq ν] in
theorem Shaped.truncate_unlinked (h : Shaped s) (hz : s.nlink vp=0)
    (hc : (s.truncate vp).bal vp=0) : Shaped (s.truncate vp) := by
  apply h.truncate
  rintro ⟨x,k⟩ hk
  by_contra hx
  have hm : ((x,k),vp)∈(s.truncate vp).entries.pairs := RefMap.mem_keep.mpr ⟨hk,by simpa using hx⟩
  have hpos := RefMap.count_pos hm
  unfold Tree.bal at hc
  rw [show (s.truncate vp).nlink vp=0 from hz,Int16.toInt_zero] at hc
  omega

theorem Tree.dirempty_spec (h : s.dirempty f vp dvp=true) {k : Name ν} {j : ℕ}
    (hm : ((vp,k),j)∈s.entries.pairs) : k=.dot ∨ (k=.dotdot ∧ j=dvp) := by
  simp only [dirempty,Bool.and_eq_true,decide_eq_true_eq] at h
  exact h.2 _ hm rfl

theorem Tree.dotdot_of_empty (he : s.dirempty f vp dvp=true) (hv : s.Home vp) :
    ((vp,Name.dotdot),dvp)∈s.entries.pairs := by
  obtain ⟨-,-,p,hp⟩ := hv
  obtain hk | ⟨-,rfl⟩ := dirempty_spec he hp
  · cases hk
  · exact hp

theorem Sound.rmdir (h : Sound s) (hm : ((dvp,.name n),vp)∈s.entries.pairs)
    (hdir : s.isDir vp=true) : Sound (s.rmdir f dvp vp n).2 := by
  unfold Tree.rmdir
  split
  · exact h
  case isFalse hne =>
    split
    · exact h
    case isFalse hempty =>
      obtain ⟨htwo,hempty⟩ := not_or.mp hempty
      have htwo : s.nlink vp=2 := not_not.mp htwo
      have hempty : s.dirempty f vp dvp=true := by simpa using hempty
      split
      · exact h
      have hhome : s.Home vp := h.home_of_ref hm hdir
      have hrem (i : ℕ) : (s.remove dvp (.name n)).bal i=ind vp i := by
        rw [bal_remove hm,h.bal,zero_add]
      have hlinks : ((s.remove dvp (.name n)).unbump dvp).nlink vp=2 := by
        rw [← htwo]
        exact Function.update_of_ne (Ne.symm hne) _ _
      have hkept {k : Name ν} {j : ℕ} (hk : ((vp,k),j)∈s.entries.pairs) :
          ((vp,k),j)∈(s.remove dvp (.name n)).entries.pairs :=
        RefMap.mem_del.mpr ⟨hk,by simp [Ne.symm hne]⟩
      simp only [hlinks]
      have hz : ((((s.remove dvp (.name n)).unbump dvp).setLinks vp (2-2)).nlink vp)=0 :=
        Function.update_self _ _ _
      have hc : ((((s.remove dvp (.name n)).unbump dvp).setLinks vp (2-2)).truncate
          vp).Counted := by
        refine counted_iff.mpr fun i => ?_
        rw [bal_truncate (s := ((s.remove dvp (.name n)).unbump dvp).setLinks vp (2-2))
            (hkept hhome.2.1) (hkept (dotdot_of_empty hempty hhome))
            (fun k j hk => (dirempty_spec hempty (RefMap.mem_del.mp hk).1).imp_right And.left),
          bal_setLinks (-2) (by rw [hlinks]; rfl),
          bal_unbump (by have hb := ind_bounds vp dvp; rw [hrem]; omega),hrem]
        ring
      exact ⟨Shaped.truncate_unlinked ((Shaped.setLinks h.remove dvp _).setLinks vp _) hz
        (counted_iff.mp hc vp),hc⟩

end Rmdir

end Ext2fsX.Links
