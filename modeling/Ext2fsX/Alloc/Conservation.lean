import Ext2fsX.Alloc.Steps

namespace Ext2fsX.Alloc

open Framework
open Function (update update_self update_of_ne)
open Blocks (Geometry kilo)

variable {g : Geometry} {s s' : State} {t : ℕ} {w : Work} {b : ℕ} {ans : Answer}

def Still (s : State) (w : Work) : Prop := w.slot.tail=[] → s.ptr false w.slot=0

instance (s : State) (w : Work) : Decidable (Still s w) := by unfold Still; infer_instance

theorem Pending.ptr_zero (hp : Pending g (s.ptr false) (s.owner false) t w) (hs : Still s w) :
    s.ptr false w.slot=0 := by
  by_cases hq : w.slot.tail=[]
  · exact hs hq
  · exact hp.empty hq

theorem clear_ptr (h : w.pageout=false) :
    (s.clear w).ptr false=clearUnder (s.ptr false) w.slot := by
  unfold State.clear
  rw [h]
  exact update_self false _ s.ptr

theorem Inv.clear (h : Inv g s) (hpc : s.th t=.filling w b) (hs : Still s w)
    (hpage : w.pageout=false) : Inv g ((s.clear w).setPc t (.filled w b)) := by
  have hgood := h.good t
  rw [hpc] at hgood
  obtain ⟨hp,hb⟩ := hgood
  have h0 := hp.ptr_zero hs
  have hptr : ((s.clear w).setPc t (.filled w b)).ptr false=clearUnder (s.ptr false) w.slot :=
    clear_ptr hpage
  obtain ⟨i,q,hiq⟩ := level_split hp.level
  have hlive : ∀ r,Live (clearUnder (s.ptr false) w.slot) r ↔ Live (s.ptr false) r := by
    rw [hiq] at h0 ⊢
    exact Live.clearUnder_iff h0
  have hdead : ¬Live (s.ptr false) w.slot := by
    rw [hiq] at h0 ⊢
    exact fun hl => hl.1 h0
  have hkept : ∀ o q,Live (s.ptr false) (o::q) →
      clearUnder (s.ptr false) w.slot (o::q)=s.ptr false (o::q) := by
    intro o q hl
    have hne : q≠w.slot := fun he => hdead (he ▸ hl.2)
    rw [clearUnder,if_neg hne]
  refine h.step (t := t) ⟨?_,?_,?_,?_⟩ ?_ h.bound ?_
  · intro u hu
    exact update_of_ne hu ..
  · exact fun q u _ _ ho => ho
  · intro o q hl
    rw [hptr]
    exact hkept o q hl
  · intro o q
    rw [hptr,clearUnder]
    by_cases hq : q=w.slot
    · rw [if_pos hq]
      exact .inr (.inl rfl)
    · rw [if_neg hq]
      exact .inl rfl
  · apply h.owned.congr
    intro k x
    cases k with
    | slot p =>
      simp only [Holds,Reaches,hptr,hlive]
      apply and_congr_right
      intro hl
      apply and_congr_right
      intro hp
      obtain ⟨n,hn⟩ := Option.isSome_iff_exists.mp hl
      obtain ⟨i,q,rfl⟩ := level_split hn
      rw [hkept i q hp]
    | window => exact holds_window rfl rfl x
    | thread u =>
      by_cases hu : u=t
      · subst hu
        rw [holds_thread (.filled w b) (by rfl)]
        simp only [Holds,hpc,Pc.Carries]
      · simp only [Holds,State.setPc,update_of_ne hu]
        rfl
  · change Good g ((s.clear w).ptr false) (s.owner false) t (update s.th t _ t)
    rw [update_self,clear_ptr hpage]
    refine ⟨⟨⟨hp.level,hp.bound,(hlive _).mpr hp.live,hp.owner,hp.direct⟩,?_⟩,hb,?_⟩
    · intro _
      rw [hiq] at h0 ⊢
      rw [clearUnder]
      split
      · rfl
      · exact h0
    · intro _ _ o
      rw [clearUnder,if_pos rfl]

theorem Inv.fill (h : Inv g s) (hpc : s.th t=.filling w b) (hs : Still s w) :
    Inv g (s.fill t w b ans) := by
  have hgood := h.good t
  rw [hpc] at hgood
  obtain ⟨hp,hb⟩ := hgood
  unfold State.fill
  cases hr : w.rest with
  | nil =>
    apply h.setPc
    · intro x
      rw [hpc]
      rfl
    · exact ⟨hp,hb,fun hne => absurd hr hne⟩
  | cons o rest =>
    have hpage : w.pageout=false := by
      cases hpo : w.pageout with
      | false => rfl
      | true => exact absurd ((hp.direct hpo).2.symm.trans hr) nofun
    rw [hpage]
    cases ans.io with
    | true => exact h.clear hpc hs hpage
    | false =>
      have hmine : ∀ x,(x==b)=true ↔ (s.th t).Carries x := by
        intro x
        rw [hpc]
        exact beq_iff_eq
      exact h.free rfl hp.toPlaced.brelse_owner rfl rfl rfl trivial hmine (fun _ => id) rfl

theorem allocDone_setPc (s : State) (t : ℕ) (pc : Pc) (w : Work) (b : ℕ) :
    (s.setPc t pc).allocDone t w b=s.allocDone t w b := by
  simp [State.allocDone,State.storeAt,State.store,State.setPc]

theorem Inv.allocDone (h : Inv g s) (hpc : s.th t=.filling w b) (hs : Still s w) :
    Inv g (s.allocDone t w b) := by
  have hgood := h.good t
  rw [hpc] at hgood
  obtain ⟨hp,hb⟩ := hgood
  have hcarry : ∀ x,(s.th t).Carries x ↔ x=b := by
    intro x
    rw [hpc]
    rfl
  unfold State.allocDone
  rw [hp.toPlaced.took]
  split
  · apply h.setPc
    · intro x
      rw [hcarry x]
      rfl
    · exact ⟨hp,hb⟩
  · next hc =>
    have hrest : w.rest=[] := by
      cases hr : w.rest with
      | nil => rfl
      | cons o rest => simp [hr] at hc
    exact Inv.storeAt hp hb (hp.ptr_zero hs) (fun hne => absurd hrest hne) h hcarry

theorem Inv.allocEnd (h : Inv g (s.setPc t (.filling w b))) (hs : Still s w) (hb : 0<b ∧ b<2^31) :
    Inv g (s.allocEnd t w b) := by
  unfold State.allocEnd
  rw [if_pos hb,←allocDone_setPc s t (.filling w b)]
  exact h.allocDone (update_self t _ s.th) hs

theorem Inv.allocStart (h : Inv g s) (hcarry : ∀ x,¬(s.th t).Carries x)
    (hp : Pending g (s.ptr false) (s.owner false) t w) (hs : Still s w) :
    Inv g (s.allocStart t w ans) := by
  unfold State.allocStart
  split
  · exact h.allocFail hp.toPlaced hcarry
  split
  · next hhit =>
    have hin : InWindow s s.preallocBlock := ⟨Nat.le_refl _,by omega⟩
    have hused : s.used s.preallocBlock=true := (h.owned.covered _).mpr ⟨.window,hin⟩
    have hb := h.bound _ hused
    refine Inv.allocEnd ?_ hs hb
    refine h.fromWindow hcarry rfl rfl rfl rfl ?_ ?_ ?_
    · rintro x rfl
      exact hin
    · intro x
      simp only [InWindow,State.setPc,Pc.Carries]
      omega
    · exact ⟨hp,hb.1⟩
  split
  · refine h.fromWindow hcarry rfl rfl rfl rfl ?_ ?_ ?_
    · exact fun x hx => hx
    · intro x
      simp only [InWindow,State.setPc,Pc.Carries]
      omega
    · exact hp
  · apply h.setPc
    · intro x
      exact iff_of_false id (hcarry x)
    · exact hp

theorem ne_nil_of_isEmpty {l : List ℕ} (h : l.isEmpty=false) : l≠[] := by
  rintro rfl
  exact absurd h nofun

section

variable (hp : Placed g (s.ptr false) (s.owner false) t w)

include hp

theorem Placed.live_slot (h : s.ptr false w.slot≠0) : Live (s.ptr false) w.slot := by
  have hlive := hp.live
  obtain ⟨i,q,hiq⟩ := level_split hp.level
  rw [hiq] at h hlive ⊢
  exact ⟨h,hlive⟩

theorem Placed.below (h : s.ptr false w.slot≠0) (hr : w.rest≠[]) : Below g (s.ptr false) w where
  level := hp.level
  bound := hp.bound
  live := hp.live_slot h
  more := hr
  pageout := by
    cases hpo : w.pageout with
    | false => rfl
    | true => exact absurd (hp.direct hpo).2 hr

theorem Placed.look : s.look w=s.ptr false w.slot := by
  unfold State.look
  rw [hp.aliased]

end

theorem Inv.enter (h : Inv g s) (hpc : s.th t=.entered w) : Inv g (s.enter t w ans) := by
  have hgood := h.good t
  rw [hpc] at hgood
  obtain ⟨hp,hq⟩ := hgood
  have hcarry : ∀ x,¬(s.th t).Carries x := by
    intro x
    rw [hpc]
    exact id
  have hmove : ∀ pc : Pc,(∀ x,¬pc.Carries x) →
      Good g (s.ptr false) (s.owner false) t pc → Inv g (s.setPc t pc) :=
    fun pc hno hg => h.setPc (fun x => iff_of_false (hno x) (hcarry x)) hg
  unfold State.enter
  rw [hp.look]
  by_cases h0 : s.ptr false w.slot=0
  · have hpend : Pending g (s.ptr false) (s.owner false) t w := ⟨hp,fun hne => absurd hq hne⟩
    rw [if_pos h0]
    split
    · exact hmove (.found w) (fun _ => id) hpend
    · exact h.allocStart hcarry hpend (fun _ => h0)
  · rw [if_neg h0]
    cases hr : w.rest.isEmpty with
    | false => exact hmove (.reading w) (fun _ => id) (hp.below h0 (ne_nil_of_isEmpty hr))
    | true =>
      rw [Bool.not_true,if_neg Bool.false_ne_true]
      split
      · exact hmove (.restoring w _) (fun _ => id)
          ⟨hp.live_slot h0,rfl,hp.aliased,level_ne_nil hp.level⟩
      · exact hmove .idle (fun _ => id) trivial

theorem Inv.lookIn (h : Inv g s) (hpc : s.th t=.holding w) : Inv g (s.lookIn t w ans) := by
  have hgood := h.good t
  rw [hpc] at hgood
  obtain ⟨hp,hq⟩ := hgood
  have hcarry : ∀ x,¬(s.th t).Carries x := by
    intro x
    rw [hpc]
    exact id
  have hpage : w.pageout=false := by
    cases hpo : w.pageout with
    | false => rfl
    | true => exact absurd (hp.direct hpo).1 hq
  unfold State.lookIn
  rw [hp.look,hpage]
  by_cases h0 : s.ptr false w.slot=0
  · rw [if_pos h0]
    exact h.allocStart hcarry ⟨hp,fun _ => h0⟩ (fun he => absurd he hq)
  rw [if_neg h0]
  apply h.brelse hp
  · intro x
    apply iff_of_false _ (hcarry x)
    split <;> exact id
  · intro owner
    cases hr : w.rest.isEmpty with
    | true => trivial
    | false => exact hp.below h0 (ne_nil_of_isEmpty hr)

theorem Inv.metaBread (h : Inv g s) (hpc : s.th t=.reading w) (hn : s.metaBread t w ans=some s') : Inv g s' := by
  have hgood := h.good t
  rw [hpc] at hgood
  have hb : Below g (s.ptr false) w := hgood
  have hcarry : ∀ x,¬(s.th t).Carries x := by
    intro x
    rw [hpc]
    exact id
  unfold State.metaBread at hn
  obtain ⟨o,rest,hr⟩ := List.exists_cons_of_ne_nil hb.more
  rw [hr] at hn
  dsimp only at hn
  rw [hb.pageout] at hn
  split at hn
  · exact absurd hn nofun
  next hfree =>
  have hnone : s.owner false w.slot=none := Decidable.not_not.mp hfree
  split at hn
  · obtain rfl := Option.some.inj hn
    exact h.setPc (fun x => iff_of_false id (hcarry x)) trivial
  obtain rfl := Option.some.inj hn
  obtain ⟨i,q,hiq⟩ := level_split hb.level
  have hlevel : level g (o::w.slot)=some rest.length := by
    have hl := hb.level
    rw [hiq,hr] at hl
    rw [hiq]
    exact level_cons.mpr ⟨hl,hb.bound o (by rw [hr]; exact List.mem_cons_self)⟩
  refine h.move rfl ?_ rfl rfl rfl ?_ (fun x => iff_of_false id (hcarry x)) rfl
  · intro q u _ _ ho
    have hne : q≠w.slot := by
      rintro rfl
      rw [hnone] at ho
      exact absurd ho nofun
    exact (if_neg (fun hc => hne hc.2)).trans ho
  · refine ⟨⟨hlevel,?_,hb.live,?_,?_⟩,?_⟩
    · intro o' ho'
      exact hb.bound o' (by rw [hr]; exact List.mem_cons_of_mem _ ho')
    · intro _
      exact if_pos ⟨rfl,rfl⟩
    · nofun
    · exact level_ne_nil hb.level

/-- Nothing decided before a gap in the lock is overtaken: a pointer found 0 is still 0 and there is
no window when one is stored, and `ext2_new_block` finds a positive block. -/
def OkAt (s : State) (ans : Answer) : Pc → Prop
  | .found w => Still s w
  | .newing _ => ans.grant.any (fun x => decide (x.1+x.2<2^31))=true
  | .obtained w _ _ _ => Still s w ∧ s.preallocCount=0
  | .filling w _ => Still s w
  | .filled w _ => Still s w
  | _ => True

/-- Page-outs are for direct blocks only, and the steps are as `OkAt` says. -/
def Ok (s : State) : Label → Prop
  | .call _ lbn pageout _ => pageout=true → lbn<12
  | .run t ans => OkAt s ans (s.th t)

instance (s : State) (ans : Answer) : (pc : Pc) → Decidable (OkAt s ans pc)
  | .found w => inferInstanceAs (Decidable (Still s w))
  | .newing _ => inferInstanceAs (Decidable (_=true))
  | .obtained w _ _ _ => inferInstanceAs (Decidable (Still s w ∧ s.preallocCount=0))
  | .filling w _ => inferInstanceAs (Decidable (Still s w))
  | .filled w _ => inferInstanceAs (Decidable (Still s w))
  | .idle => .isTrue trivial
  | .entered _ => .isTrue trivial
  | .freeing _ _ _ => .isTrue trivial
  | .restoring _ _ => .isTrue trivial
  | .reading _ => .isTrue trivial
  | .holding _ => .isTrue trivial
  | .writing _ => .isTrue trivial
  | .failing _ => .isTrue trivial

instance (s : State) : (a : Label) → Decidable (Ok s a)
  | .call _ lbn pageout _ => inferInstanceAs (Decidable (pageout=true → lbn<12))
  | .run t ans => inferInstanceAs (Decidable (OkAt s ans (s.th t)))

theorem Inv.run (h : Inv g s) (hok : OkAt s ans (s.th t)) (hn : s.run t ans=some s') :
    Inv g s' := by
  have hgood := h.good t
  unfold State.run at hn
  cases hpc : s.th t with
  | idle =>
    rw [hpc] at hn
    exact absurd hn nofun
  | entered w =>
    rw [hpc] at hn
    obtain rfl := Option.some.inj hn
    exact h.enter hpc
  | found w =>
    rw [hpc] at hn hok hgood
    obtain rfl := Option.some.inj hn
    exact h.allocStart (fun x => by rw [hpc]; exact id) hgood hok
  | freeing w blk n =>
    rw [hpc] at hn hgood
    obtain rfl := Option.some.inj hn
    have hmine : ∀ x,(decide (blk≤x) && decide (x<blk+n))=true ↔ (s.th t).Carries x := by
      rw [hpc]
      simp [Pc.Carries]
    exact h.free rfl (fun _ _ _ _ ho => ho) rfl rfl rfl hgood hmine (fun _ => id) rfl
  | newing w =>
    rw [hpc] at hn hok hgood
    obtain ⟨⟨b,n⟩,hgrant,hlt⟩ := Option.any_eq_true .. |>.mp hok
    exact h.newBlock (fun x => by rw [hpc]; exact id) hgood hgrant (of_decide_eq_true hlt) hn
  | obtained w bno ibn icount =>
    rw [hpc] at hn hok hgood
    obtain rfl := Option.some.inj hn
    exact Inv.allocEnd (h.toWindow hpc hok.2) hok.1 hgood.2.2
  | filling w b =>
    rw [hpc] at hn hok
    obtain rfl := Option.some.inj hn
    exact h.fill hpc hok
  | filled w b =>
    rw [hpc] at hn hok hgood
    obtain rfl := Option.some.inj hn
    obtain ⟨hp,hb,hunder⟩ := hgood
    have h0 := hp.ptr_zero hok
    exact Inv.storeAt hp hb h0 (fun hr => hunder hr h0) h (fun x => by rw [hpc]; rfl)
  | restoring w b =>
    rw [hpc] at hn hgood
    obtain rfl := Option.some.inj hn
    obtain ⟨-,hptr,halias,-⟩ := hgood
    have hsame : s.store w b=s := by
      unfold State.store
      rw [halias,←hptr,Function.update_eq_self,Function.update_eq_self]
    rw [hsame,ite_self]
    exact h.setPc (fun x => iff_of_false id (by rw [hpc]; exact id)) trivial
  | reading w =>
    rw [hpc] at hn
    exact h.metaBread hpc hn
  | holding w =>
    rw [hpc] at hn
    obtain rfl := Option.some.inj hn
    exact h.lookIn hpc
  | writing w =>
    rw [hpc] at hn hgood
    obtain rfl := Option.some.inj hn
    obtain ⟨hp,-,h0⟩ := hgood
    apply h.brelse hp
    · intro x
      rw [hpc]
      split <;> rfl
    · intro owner
      cases hr : w.rest.isEmpty with
      | true => trivial
      | false => exact hp.below h0 (ne_nil_of_isEmpty hr)
  | failing w =>
    rw [hpc] at hgood
    exact absurd hgood id

theorem Inv.call (h : Inv g s) {lbn : ℕ} {pageout allocBuf : Bool} (hok : pageout=true → lbn<12)
    (hn : s.call t g lbn pageout allocBuf=some s') : Inv g s' := by
  unfold State.call at hn
  cases hpc : s.th t with
  | idle =>
    rw [hpc] at hn
    dsimp only at hn
    split at hn
    · obtain rfl := Option.some.inj hn
      exact h
    next k offs ht =>
    obtain rfl := Option.some.inj hn
    obtain ⟨hlevel,hbound⟩ := target_level ht
    apply h.setPc
    · intro x
      rw [hpc]
      rfl
    · refine ⟨⟨hlevel,hbound,trivial,fun hne => absurd rfl hne,?_⟩,rfl⟩
      intro hpo
      unfold target at ht
      rw [if_pos (hok hpo)] at ht
      exact ⟨rfl,(Prod.mk.inj (Option.some.inj ht)).2.symm⟩
  | _ =>
    rw [hpc] at hn
    exact absurd hn nofun

theorem Start.inv (h : Start g s) : Inv g s where
  owned := by
    constructor
    · intro x
      constructor
      · intro hx
        obtain ⟨⟨p,hp,-⟩,-⟩ | ⟨-,hw⟩ := h.accounted x hx
        · exact ⟨.slot p,hp⟩
        · exact ⟨.window,hw⟩
      · rintro ⟨k,hk⟩
        cases k with
        | slot p => exact h.reached p x hk
        | window => exact h.window x hk
        | thread t =>
          rw [Holds,h.quiet t] at hk
          exact absurd hk id
    · intro k l x hk hl
      have hthread : ∀ t,¬Holds g s (.thread t) x := by
        intro t ht
        rw [Holds,h.quiet t] at ht
        exact ht
      cases k with
      | slot p =>
        obtain ⟨⟨r,-,hone⟩,hnw⟩ | ⟨hnone,-⟩ := h.accounted x (h.reached p x hk)
        · cases l with
          | slot p' => rw [hone p hk,hone p' hl]
          | window => exact absurd hl hnw
          | thread t => exact absurd hl (hthread t)
        · exact absurd hk (hnone p)
      | window =>
        obtain ⟨-,hnw⟩ | ⟨hnone,-⟩ := h.accounted x (h.window x hk)
        · exact absurd hk hnw
        · cases l with
          | slot p' => exact absurd hl (hnone p')
          | window => rfl
          | thread t => exact absurd hl (hthread t)
      | thread t => exact absurd hk (hthread t)
  bound := h.bound
  good := by
    intro t
    rw [h.quiet t]
    trivial

theorem Inv.accounted (h : Inv g s) (hq : Quiet s) : Accounted g s := by
  intro b hb
  obtain ⟨k,hk⟩ := (h.owned.covered b).mp hb
  cases k with
  | slot p =>
    refine .inl ⟨⟨p,hk,?_⟩,?_⟩
    · intro r hr
      exact Holder.slot.inj (h.owned.sole (.slot r) (.slot p) b hr hk)
    · intro hw
      exact absurd (h.owned.sole .window (.slot p) b hw hk) nofun
  | window =>
    refine .inr ⟨?_,hk⟩
    intro p hp
    exact absurd (h.owned.sole .window (.slot p) b hk hp) nofun
  | thread t =>
    rw [Holds,hq t] at hk
    exact absurd hk id

/-- In any interleaving of such steps every block marked used for the file is reachable once or in
the window whenever all threads are outside. -/
theorem blocks_accounted (g : Geometry) (s : State) (h : (machine g).Reach Ok s) (hq : Quiet s) :
    Accounted g s := by
  have hinv : Inv g s := by
    apply h.invariant
    · exact fun s hs => hs.inv
    · intro s s' a hs hok hn
      cases a with
      | call t lbn pageout allocBuf => exact hs.call hok hn
      | run t ans => exact hs.run hok hn
  exact hinv.accounted hq

def emptyFile : State :=
  ⟨fun _ _ => 0,fun _ => false,fun _ _ => none,0,0,fun _ => false,fun _ => .idle⟩

theorem emptyFile_start : Start kilo emptyFile where
  quiet _ := rfl
  accounted _ hb := absurd hb nofun
  reached p b hr := by
    obtain ⟨hl,hlive,-⟩ := hr
    obtain ⟨n,hn⟩ := Option.isSome_iff_exists.mp hl
    obtain ⟨i,q,rfl⟩ := level_split hn
    exact absurd rfl hlive.1
  window b hw := absurd hw.2 (Nat.not_lt_zero b)
  bound _ hb := absurd hb nofun
  free _ _ := rfl

def goOn (t : ℕ) (bpref : ℕ) : Label := .run t ⟨false,bpref,none,(0,0),true,false,fun _ => 0⟩

/-- The same in `ext2_new_block`, which finds `b` and `n` blocks behind it. -/
def grant (t : ℕ) (b n : ℕ) : Label := .run t ⟨false,0,some (b,n),(0,0),true,false,fun _ => 0⟩

def twoWriters : List Label :=
  [.call 0 0 false true,goOn 0 0,.call 1 1 false true,grant 0 100 7,goOn 0 0,goOn 1 100,
    goOn 0 0,goOn 1 0,goOn 1 0,goOn 0 0,.call 0 12 false false,goOn 0 101,goOn 0 0,goOn 0 0,
    goOn 0 0,goOn 0 102,goOn 0 0]

def after (as : List Label) : State := ((machine kilo).exec as emptyFile).getD emptyFile

theorem blocks_accounted_twoWriters :
    (after twoWriters).ptr false [0]=100 ∧ (after twoWriters).ptr false [1]=101 ∧
      (after twoWriters).ptr false [0,12]=103 ∧ (after twoWriters).used 104=true ∧
      Accounted kilo (after twoWriters) := by
  have hexec : (machine kilo).exec twoWriters emptyFile=some (after twoWriters) := rfl
  have hmeets : (machine kilo).Meets Ok twoWriters emptyFile := by decide +kernel
  have hquiet : Quiet (after twoWriters) := by
    intro t
    match t with
    | 0 => rfl
    | 1 => rfl
    | t+2 => rfl
  exact ⟨rfl,rfl,rfl,rfl,
    blocks_accounted kilo _ (.exec (.start emptyFile_start) hmeets hexec) hquiet⟩

/-- A write and a page-out both find `i_db[0]` 0 and get a block and a window. -/
def race : List Label :=
  [.call 0 0 false false,goOn 0 0,.call 1 0 true false,goOn 1 0,goOn 1 0,grant 0 100 7,
    grant 1 200 7,goOn 0 0,goOn 1 0]

/-- The second store overwrites the first: block 100 and its window stay marked used. -/
theorem race_loses_blocks :
    Start kilo emptyFile ∧ (machine kilo).exec race emptyFile=some (after race) ∧
      Quiet (after race) ∧ (after race).used 100=true ∧ (after race).used 101=true ∧
      (∀ p,¬Reaches kilo (after race) p 100) ∧ ¬InWindow (after race) 101 ∧
      ¬Accounted kilo (after race) := by
  have hptr : (after race).ptr false=
      update (update (fun _ => 0) [0] 100) [0] 200 := rfl
  have hquiet : Quiet (after race) := by
    intro t
    match t with
    | 0 => rfl
    | 1 => rfl
    | t+2 => rfl
  have hlost : ∀ p,¬Reaches kilo (after race) p 100 := by
    intro p hr
    have hp := hr.2.2
    rw [hptr,Function.update_idem] at hp
    by_cases h0 : p=[0]
    · rw [h0,update_self] at hp
      exact absurd hp (by decide)
    · rw [update_of_ne h0] at hp
      exact absurd hp (by decide)
  have hwindow : ∀ b,b<201 → ¬InWindow (after race) b := by
    intro b hb hw
    exact absurd hw.1 (Nat.not_le_of_lt hb)
  refine ⟨emptyFile_start,rfl,hquiet,rfl,rfl,hlost,hwindow 101 (by decide),?_⟩
  intro hacc
  obtain ⟨⟨p,hp,-⟩,-⟩ | ⟨-,hw⟩ := hacc 100 rfl
  · exact hlost p hp
  · exact hwindow 100 (by decide) hw

end Ext2fsX.Alloc
