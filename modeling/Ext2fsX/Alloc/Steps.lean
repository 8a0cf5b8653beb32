import Ext2fsX.Alloc.Holding

namespace Ext2fsX.Alloc

open Framework
open Function (update update_self update_of_ne)
open Blocks (Geometry)

variable {g : Geometry} {s s' : State} {t : ℕ} {w : Work} {b : ℕ}

theorem Frame.of_tree (pc : Pc) (hth : s'.th=update s.th t pc)
    (hown : ∀ q u,q≠[] → u≠t → s.owner false q=some u → s'.owner false q=some u)
    (hptr : s'.ptr false=s.ptr false) : Frame s s' t where
  th u hu := by rw [hth,update_of_ne hu]
  owner := hown
  kept o q _ := by rw [hptr]
  wrote o q := .inl (by rw [hptr])

theorem holds_of_tree (pc : Pc) (hth : s'.th=update s.th t pc)
    (hptr : s'.ptr false=s.ptr false) {k : Holder} (hw : k≠.window) (ht : k≠.thread t) (x : ℕ) :
    Holds g s' k x ↔ Holds g s k x := by
  cases k with
  | slot p => simp only [Holds,Reaches,hptr]
  | window => exact absurd rfl hw
  | thread u =>
    have hu : u≠t := fun h => ht (h ▸ rfl)
    simp only [Holds,hth,update_of_ne hu]

theorem holds_window (hb : s'.preallocBlock=s.preallocBlock) (hc : s'.preallocCount=s.preallocCount)
    (x : ℕ) :
    Holds g s' .window x ↔ Holds g s .window x := by
  simp only [Holds,InWindow,hb,hc]

theorem holds_thread (pc : Pc) (hth : s'.th=update s.th t pc) (x : ℕ) :
    Holds g s' (.thread t) x ↔ pc.Carries x := by
  simp [Holds,hth]

section

variable (h : Inv g s) {pc : Pc} (hth : s'.th=update s.th t pc)
    (hown : ∀ q u,q≠[] → u≠t → s.owner false q=some u → s'.owner false q=some u)
    (hptr : s'.ptr false=s.ptr false) (hb : s'.preallocBlock=s.preallocBlock)
    (hc : s'.preallocCount=s.preallocCount) (hgood : Good g (s'.ptr false) (s'.owner false) t pc)

include h hth hown hptr hb hc hgood

/-- What the thread no longer carries is free. -/
theorem Inv.drop (hcarry : ∀ x,pc.Carries x → (s.th t).Carries x)
    (hused : ∀ x,s'.used x=true ↔ s.used x=true ∧ ¬((s.th t).Carries x ∧ ¬pc.Carries x)) :
    Inv g s' := by
  apply h.step (Frame.of_tree pc hth hown hptr)
  · apply h.owned.release (a := Holder.thread t) (X := fun x => (s.th t).Carries x ∧ ¬pc.Carries x)
      (fun x hx => hx.1) hused
    · intro x
      rw [holds_thread pc hth,not_and_not_right]
      exact ⟨fun hx => ⟨hcarry x hx,fun _ => hx⟩,fun hx => hx.2 hx.1⟩
    · intro k ht x
      by_cases hw : k=.window
      · rw [hw]
        exact holds_window hb hc x
      · exact holds_of_tree pc hth hptr hw ht x
  · intro x hx
    exact h.bound x ((hused x).mp hx).1
  · rw [hth,update_self]
    exact hgood

theorem Inv.move (hcarry : ∀ x,pc.Carries x ↔ (s.th t).Carries x) (hused : s'.used=s.used) :
    Inv g s' :=
  h.drop hth hown hptr hb hc hgood (fun x => (hcarry x).mp) (fun x => by simp [hused,hcarry])

theorem Inv.free {p : ℕ → Bool} (hp : ∀ x,p x=true ↔ (s.th t).Carries x)
    (hpc : ∀ x,¬pc.Carries x) (hused : s'.used=(s.freeBlocks p).used) : Inv g s' :=
  h.drop hth hown hptr hb hc hgood (fun x hx => absurd hx (hpc x))
    (fun x => by simp [hused,State.freeBlocks,← hp x,hpc x])

end

theorem Inv.setPc (h : Inv g s) {pc : Pc} (hcarry : ∀ x,pc.Carries x ↔ (s.th t).Carries x)
    (hgood : Good g (s.ptr false) (s.owner false) t pc) : Inv g (s.setPc t pc) :=
  h.move rfl (fun _ _ _ _ ho => ho) rfl rfl rfl hgood hcarry rfl

theorem Placed.aliased (h : Placed g (s.ptr false) (s.owner false) t w) : w.aliased=false := by
  unfold Work.aliased Work.inInode
  cases hp : w.pageout with
  | false => rfl
  | true => rw [(h.direct hp).1]; rfl

theorem Placed.took (h : Placed g (s.ptr false) (s.owner false) t w) (b : ℕ) : w.took b=w := by
  unfold Work.took Work.inInode
  cases hp : w.pageout with
  | false => rfl
  | true => rw [(h.direct hp).1,(h.direct hp).2]; rfl

theorem Placed.brelse_owner (hp : Placed g (s.ptr false) (s.owner false) t w) (q : Slot) (u : ℕ)
    (hq : q≠[]) (hu : u≠t) (ho : s.owner false q=some u) :
    (s.brelse w).owner false q=some u := by
  have hne : q≠w.slot.tail := by
    rintro rfl
    exact hu (Option.some.inj (ho.symm.trans (hp.owner hq)))
  change (if false=w.aliased ∧ q=w.slot.tail then none else s.owner false q)=some u
  rw [if_neg (fun hc => hne hc.2)]
  exact ho

section

variable (h : Inv g s)

include h

theorem Inv.brelse (hp : Placed g (s.ptr false) (s.owner false) t w) {pc : Pc}
    (hcarry : ∀ x,pc.Carries x ↔ (s.th t).Carries x)
    (hgood : ∀ owner,Good g (s.ptr false) owner t pc) :
    Inv g ((s.brelse w).setPc t pc) :=
  h.move rfl hp.brelse_owner rfl rfl rfl (hgood _) hcarry rfl

theorem Inv.allocFail (hp : Placed g (s.ptr false) (s.owner false) t w)
    (hcarry : ∀ x,¬(s.th t).Carries x) : Inv g (s.allocFail t w) := by
  unfold State.allocFail
  rw [hp.aliased]
  apply h.brelse hp
  · intro x
    exact iff_of_false id (hcarry x)
  · intro owner
    trivial

theorem Inv.fromWindow (hcarry : ∀ x,¬(s.th t).Carries x) {pc : Pc}
    (hth : s'.th=update s.th t pc) (hptr : s'.ptr=s.ptr) (hown : s'.owner=s.owner)
    (hused : s'.used=s.used) (hpc : ∀ x,pc.Carries x → InWindow s x)
    (hwin : ∀ x,InWindow s' x ↔ InWindow s x ∧ ¬pc.Carries x)
    (hgood : Good g (s.ptr false) (s.owner false) t pc) : Inv g s' := by
  have hptr' : s'.ptr false=s.ptr false := by rw [hptr]
  have hown' : s'.owner false=s.owner false := by rw [hown]
  apply h.step (Frame.of_tree pc hth (fun q u _ _ ho => by rw [hown',ho]) hptr')
  · rw [hused]
    apply h.owned.transfer (a := Holder.window) (b := Holder.thread t) (X := pc.Carries) nofun hpc
    · intro x
      rw [holds_thread pc hth]
      simp [Holds,hcarry x]
    · exact hwin
    · intro k hw ht x
      exact holds_of_tree pc hth hptr' hw ht x
  · rw [hused]
    exact h.bound
  · rw [hth,update_self,hptr',hown']
    exact hgood

theorem Inv.newBlock (hcarry : ∀ x,¬(s.th t).Carries x)
    (hp : Pending g (s.ptr false) (s.owner false) t w) {ans : Answer} {n : ℕ}
    (hgrant : ans.grant=some (b,n)) (hlt : b+n<2^31) (hn : s.newBlock t w ans=some s') :
    Inv g s' := by
  unfold State.newBlock at hn
  rw [hgrant] at hn
  dsimp only at hn
  split at hn
  case isFalse => exact absurd hn nofun
  case isTrue hfree =>
    obtain rfl := Option.some.inj hn
    have hfresh : ∀ x,b≤x ∧ x≤b+n → ¬s.used x=true := by
      intro x hx
      have hall := List.all_eq_true.mp hfree.2 (x-b) (List.mem_range.mpr (by omega))
      rw [Nat.add_sub_cancel' hx.1] at hall
      simpa using hall
    have hused : ∀ x,(s.used x || (decide (b≤x) && decide (x≤b+n)))=true ↔
        s.used x=true ∨ (b≤x ∧ x≤b+n) := by
      simp
    have hpos : 0<b := Nat.pos_of_ne_zero hfree.1
    refine h.step (t := t) (Frame.of_tree _ rfl (fun _ _ _ _ ho => ho) rfl) ?_ ?_ ?_
    · apply h.owned.acquire (a := Holder.thread t) (X := fun x => b≤x ∧ x≤b+n) hfresh hused
      · intro x
        have hnone : ¬Holds g s (.thread t) x := hcarry x
        rw [holds_thread _ rfl,or_iff_right hnone]
        simp only [Pc.Carries]
        omega
      · intro k ht x
        by_cases hw : k=.window
        · rw [hw]
          exact holds_window rfl rfl x
        · exact holds_of_tree (.obtained w b (b+1) n) (by rfl) (by rfl) hw ht x
    · intro x hx
      obtain hx | hx := (hused x).mp hx
      · exact h.bound x hx
      · omega
    · change Good g (s.ptr false) (s.owner false) t (update s.th t _ t)
      rw [update_self]
      exact ⟨hp,rfl,hpos,by omega⟩

theorem Inv.toWindow {ibn icount : ℕ} (hpc : s.th t=.obtained w b ibn icount)
    (hcount : s.preallocCount=0) :
    Inv g ({ s with preallocBlock := ibn, preallocCount := icount }.setPc t (.filling w b)) := by
  have hgood := h.good t
  rw [hpc] at hgood
  obtain ⟨hp,hibn,hpos,-⟩ := hgood
  refine h.step (t := t) (Frame.of_tree _ rfl (fun _ _ _ _ ho => ho) rfl) ?_ ?_ ?_
  · apply h.owned.transfer (a := Holder.thread t) (b := Holder.window)
      (X := fun x => ibn≤x ∧ x < ibn+icount) nofun
    · intro x hx
      simp only [Holds,hpc,Pc.Carries]
      exact .inr hx
    · intro x
      simp only [Holds,InWindow,State.setPc,hcount]
      omega
    · intro x
      rw [holds_thread _ rfl]
      simp only [Holds,hpc,Pc.Carries]
      omega
    · intro k ht hw x
      exact holds_of_tree (.filling w b) (by rfl) (by rfl) hw ht x
  · exact h.bound
  · change Good g (s.ptr false) (s.owner false) t (update s.th t _ t)
    rw [update_self]
    exact ⟨hp,hpos⟩

end

theorem store_ptr (h : w.aliased=false) (b : ℕ) :
    (s.store w b).ptr false=update (s.ptr false) w.slot b := by
  unfold State.store
  rw [h]
  exact update_self false _ s.ptr

theorem no_slots_under (h : Placed g (s.ptr false) (s.owner false) t w)
    (hunder : w.rest≠[] → ∀ o,s.ptr false (o::w.slot)=0) (o : ℕ)
    (ho : (level g (o::w.slot)).isSome) : s.ptr false (o::w.slot)=0 := by
  apply hunder
  intro hr
  obtain ⟨n,hn⟩ := Option.isSome_iff_exists.mp ho
  obtain ⟨i,q,hiq⟩ := level_split h.level
  have hlevel := h.level
  rw [hiq] at hn hlevel
  rw [(level_cons.mp hn).1,hr] at hlevel
  exact absurd (Option.some.inj hlevel) nofun

section Store

variable (hp : Pending g (s.ptr false) (s.owner false) t w) (hb : 0<b)
  (h0 : s.ptr false w.slot=0) (hunder : w.rest≠[] → ∀ o,s.ptr false (o::w.slot)=0)

include hp hb h0 hunder in
theorem Pending.live_update {r : Slot} (hr : (level g r).isSome) :
    Live (update (s.ptr false) w.slot b) r ↔ Live (s.ptr false) r ∨ r=w.slot := by
  have hcase := no_slots_under hp.toPlaced hunder
  have hlive := hp.live
  obtain ⟨i,q,hiq⟩ := level_split hp.level
  rw [hiq] at h0 hcase hlive ⊢
  exact Live.update_iff (V := fun p => (level g p).isSome) level_closed hlive h0
    (Nat.ne_of_gt hb) hcase hr

include hp h0 in
theorem Pending.store_frame (pc : Pc) : Frame s ((s.store w b).setPc t pc) t := by
  have hptr : ((s.store w b).setPc t pc).ptr false=update (s.ptr false) w.slot b :=
    store_ptr hp.aliased b
  constructor
  · intro u hu
    exact update_of_ne hu ..
  · exact fun q u _ _ ho => ho
  · intro o q hl
    have hne : o::q≠w.slot := by
      intro he
      rw [←he] at h0
      exact hl.1 h0
    rw [hptr,update_of_ne hne]
  · intro o q
    by_cases he : o::q=w.slot
    · have htail : w.slot.tail=q := by rw [←he]; rfl
      rw [←htail]
      exact .inr (.inr ⟨hp.live,hp.owner⟩)
    · rw [hptr,update_of_ne he]
      exact .inl rfl

include hp hb h0 hunder in
theorem Pending.store_owned (h : Inv g s) (hcarry : ∀ x,(s.th t).Carries x ↔ x=b) {pc : Pc}
    (hpc : ∀ x,¬pc.Carries x) :
    Owned (Holds g ((s.store w b).setPc t pc)) (fun x => s.used x=true) := by
  have hptr : ((s.store w b).setPc t pc).ptr false=update (s.ptr false) w.slot b :=
    store_ptr hp.aliased b
  have hlevel : (level g w.slot).isSome := by rw [hp.level]; rfl
  have hdead : ¬Live (s.ptr false) w.slot := by
    obtain ⟨i,q,hiq⟩ := level_split hp.level
    rw [hiq] at h0 ⊢
    exact fun hl => hl.1 h0
  apply h.owned.transfer (a := Holder.thread t) (b := Holder.slot w.slot) (X := fun x => x=b)
    nofun
  · intro x hx
    exact (hcarry x).mpr hx
  · intro x
    have hno : ¬Holds g s (.slot w.slot) x := fun hr => hdead hr.2.1
    rw [or_iff_right hno]
    simp only [Holds,Reaches,hptr,hp.live_update hb h0 hunder hlevel,update_self]
    constructor
    · exact fun hr => hr.2.2.symm
    · exact fun hx => ⟨hlevel,.inr trivial,hx.symm⟩
  · intro x
    rw [holds_thread pc (by rfl)]
    apply iff_of_false (hpc x)
    exact fun hc => hc.2 ((hcarry x).mp hc.1)
  · intro k ht hk x
    cases k with
    | slot p =>
      have hne : p≠w.slot := fun he => hk (he ▸ rfl)
      simp only [Holds,Reaches,hptr,update_of_ne hne]
      apply and_congr_right
      intro hl
      rw [hp.live_update hb h0 hunder hl,or_iff_left hne]
    | window => exact holds_window rfl rfl x
    | thread u =>
      have hu : u≠t := fun he => ht (he ▸ rfl)
      simp only [Holds,State.setPc,update_of_ne hu]
      rfl

include hp hb h0 hunder in
theorem Inv.storeAt (h : Inv g s) (hcarry : ∀ x,(s.th t).Carries x ↔ x=b) :
    Inv g (s.storeAt t w b) := by
  have hptr : (s.store w b).ptr false=update (s.ptr false) w.slot b := store_ptr hp.aliased b
  have hlevel : (level g w.slot).isSome := by rw [hp.level]; rfl
  have hslot : Live (update (s.ptr false) w.slot b) w.slot :=
    (hp.live_update hb h0 hunder hlevel).mpr (.inr rfl)
  have hdone : ∀ pc : Pc,(∀ x,¬pc.Carries x) →
      Good g (update (s.ptr false) w.slot b) (s.owner false) t pc →
      Inv g ((s.store w b).setPc t pc) := by
    intro pc hpc hgood
    refine h.step (hp.store_frame h0 pc) (hp.store_owned hb h0 hunder h hcarry hpc) h.bound ?_
    change Good g ((s.store w b).ptr false) (s.owner false) t (update s.th t pc t)
    rw [update_self,hptr]
    exact hgood
  unfold State.storeAt
  cases hin : w.inInode with
  | true =>
    cases hr : w.rest.isEmpty with
    | true => exact hdone .idle (fun _ => id) trivial
    | false =>
      apply hdone (.reading { w with newRoot := true }) (fun _ => id)
      have hne : w.rest≠[] := fun he => by rw [he] at hr; exact absurd hr nofun
      have hpage : w.pageout=false := by
        cases hpo : w.pageout with
        | false => rfl
        | true => exact absurd (hp.direct hpo).2 hne
      exact ⟨hp.level,hp.bound,hslot,hne,hpage⟩
  | false =>
    apply hdone (.writing w) (fun _ => id)
    have hne : w.slot.tail≠[] := fun he => by
      unfold Work.inInode at hin
      rw [he] at hin
      exact absurd hin nofun
    have hlive : Live (update (s.ptr false) w.slot b) w.slot.tail := by
      have hf := (hp.store_frame h0 (b := b) .idle).live hp.live
      rw [←hptr]
      exact hf
    refine ⟨⟨hp.level,hp.bound,hlive,hp.owner,hp.direct⟩,hne,?_⟩
    rw [update_self]
    exact Nat.ne_of_gt hb

end Store

end Ext2fsX.Alloc
