import Ext2fsX.Reuse.Lifetime

namespace Ext2fsX.Reuse

open Framework

def GenLater (g c : UInt32) (k : ℕ) : Prop := Later (2^32) (2^30) g.toNat c.toNat k

variable {g : UInt32} {y : Inode × Slot} {ino : ℕ}

theorem GenLater.ne_zero {c : UInt32} {k : ℕ} (h : GenLater g c k) (hg : g≠0) : c≠0 := by
  have hpos : 0<g.toNat := Nat.pos_of_ne_zero fun h0 => hg (UInt32.toNat_inj.mp h0)
  have hc := Later.pos h hpos
  rintro rfl
  exact absurd hc (by decide)

theorem GenLater.valloc {env : Env} (henv : env.Documented) {k : ℕ} {ip : Inode}
    (h : GenLater g ip.gen k) (h0 : ip.gen≠0) (hk : k<2^31) :
    GenLater g (vallocBody env ip).gen (k+1) := by
  have hlt := ip.gen.toNat_lt
  have hadd : (ip.gen+1).toNat=(ip.gen.toNat+1)%2^32 := UInt32.toNat_add ip.gen 1
  change GenLater g (if ip.gen=0 ∨ ip.gen+1=0 then env.random 1 else ip.gen+1) (k+1)
  by_cases hlast : ip.gen+1=0
  · rw [if_pos (Or.inr hlast)]
    have hz : (ip.gen.toNat+1)%2^32=0 := by rw [←hadd,hlast]; rfl
    exact Later.restart h g.toNat_lt (by omega) (by omega) henv.2.1 henv.2.2
  rw [if_neg (not_or.mpr ⟨h0,hlast⟩)]
  have hz : (ip.gen.toNat+1)%2^32≠0 := by
    exact fun hz => hlast (UInt32.toNat_inj.mp hz)
  have hnext : (ip.gen+1).toNat=ip.gen.toNat+1 := by omega
  unfold GenLater
  rw [hnext]
  exact Later.succ h (by omega)

theorem itimes_flag (now : Time) (dev : Bool) (ip : Inode) :
    (ip.flag.modified=true → (itimes now dev ip).flag.modified=true) ∧
      (ip.flag.lazymod=true → (itimes now dev ip).flag.lazymod=true) ∧
      (ip.flag.change=true → (itimes now dev ip).flag.modified=true ∨
        (itimes now dev ip).flag.lazymod=true) := by
  unfold itimes
  dsimp only
  split
  · refine ⟨id,id,?_⟩
    simp_all
  · cases dev <;> simp

/-- `ext2_update` keeps the inode and either writes it or, without a mark, leaves the slot. -/
structure Updated (x y : Inode × Slot) : Prop where
  gen : y.1.gen=x.1.gen
  mode : y.1.mode=x.1.mode
  slot : (y.2.generation=x.1.gen ∧ y.2.mode=x.1.mode) ∨
    (y.2=x.2 ∧ x.1.flag.modified=false ∧ (x.1.flag.lazymod=true → y.1.flag.lazymod=true) ∧
      (x.1.flag.change=true → y.1.flag.lazymod=true))

theorem update_updated (env : Env) (now : Time) (dev : Bool) (x : Inode × Slot) :
    Updated x (update env now dev x) := by
  have hgen := (itimes_kept now dev x.1).gen
  have hmode := (itimes_kept now dev x.1).mode
  obtain ⟨hm,hl,hc⟩ := itimes_flag now dev x.1
  unfold update
  by_cases h : (itimes now dev x.1).flag.modified=true
  · rw [if_pos h]
    exact ⟨hgen,hmode,Or.inl ⟨hgen,hmode⟩⟩
  · rw [if_neg h]
    refine ⟨hgen,hmode,Or.inr ⟨rfl,?_,hl,fun hch => (hc hch).resolve_left h⟩⟩
    exact Bool.eq_false_iff.mpr fun hmod => h (hm hmod)

def Saved (x : Inode × Slot) : Prop := x.2.generation=x.1.gen ∨ x.1.flag.lazymod=true

def Gone (x : Inode × Slot) : Prop := ¬x.2.Live ∨ x.1.flag.lazymod=true

theorem Updated.saved {x : Inode × Slot} (h : Updated x y)
    (hx : Saved x ∨ x.1.flag.modified=true ∨ x.1.flag.change=true) : Saved y := by
  rcases h.slot with ⟨hw,_⟩ | ⟨hs,hm,hl,hc⟩
  · exact Or.inl (hw.trans h.gen.symm)
  rcases hx with (hx | hx) | hx | hx
  · exact Or.inl (by rw [hs,hx,h.gen])
  · exact Or.inr (hl hx)
  · rw [hm] at hx
    exact nomatch hx
  · exact Or.inr (hc hx)

theorem Updated.gone {x : Inode × Slot} (h : Updated x y) (h0 : x.1.mode=0)
    (hx : Gone x ∨ x.1.flag.change=true) : Gone y := by
  rcases h.slot with ⟨_,hw⟩ | ⟨hs,_,hl,hc⟩
  · exact Or.inl fun hlive => hlive.2 (hw.trans h0)
  · rcases hx with (hx | hx) | hx
    · exact Or.inl (by rw [hs]; exact hx)
    · exact Or.inr (hl hx)
    · exact Or.inr (hc hx)

variable {env : Env} {r : Rest} {dev : Bool}

section

variable (hr : r.rdonly=false)

include hr

variable (x : Inode × Slot)

theorem settle_updated (h : x.1.flag.modified=true ∨ x.1.flag.change=true) :
    Updated x (settle env r dev x) := by
  have hset : (x.1.flag.change || x.1.flag.update || x.1.flag.modified)=true := by
    rcases h with h | h <;> simp [h]
  unfold settle
  dsimp only
  rw [hset,Bool.or_true,if_pos rfl,if_neg (by simp),updateVp,hr,if_neg (by simp)]
  exact update_updated env (r.time 1) dev x

theorem settle_gen : (settle env r dev x).1.gen=x.1.gen := by
  unfold settle
  dsimp only
  split
  · split
    · rfl
    · rw [updateVp,hr,if_neg (by simp)]
      exact (update_updated env (r.time 1) dev x).gen
  · rfl

theorem settle_saved {x : Inode × Slot}
    (hx : Saved x ∨ x.1.flag.modified=true) : Saved (settle env r dev x) := by
  by_cases h : x.1.flag.modified=true ∨ x.1.flag.change=true
  · exact (settle_updated hr x h).saved (by
      rcases hx with hx | hx
      · exact Or.inl hx
      · exact Or.inr (Or.inl hx))
  have hs : Saved x := hx.resolve_right fun hm => h (Or.inl hm)
  unfold settle
  dsimp only
  split
  · split
    · exact hs
    · rw [updateVp,hr,if_neg (by simp)]
      exact (update_updated env (r.time 1) dev x).saved (Or.inl hs)
  · exact hs

theorem truncateVp_gen : (truncateVp env r dev x).1.gen=x.1.gen := by
  unfold truncateVp
  cases r.truncate x.1.contents with
  | none => rfl
  | some c =>
    change (updateVp env r.rdonly (r.time 0) dev _).1.gen=x.1.gen
    rw [updateVp,hr,if_neg (by simp)]
    exact (update_updated env (r.time 0) dev _).gen

theorem settle_destroy : (settle env r dev (destroy env r dev x)).1.gen=x.1.gen ∧
      (settle env r dev (destroy env r dev x)).1.mode=0 ∧
      Saved (settle env r dev (destroy env r dev x)) ∧
      Gone (settle env r dev (destroy env r dev x)) := by
  have hgen : (destroy env r dev x).1.gen=x.1.gen := truncateVp_gen hr x
  have hmark : (destroy env r dev x).1.flag.change=true := rfl
  have hu : Updated (destroy env r dev x) (settle env r dev (destroy env r dev x)) :=
    settle_updated hr _ (Or.inr hmark)
  exact ⟨hu.gen.trans hgen,hu.mode,hu.saved (Or.inr (Or.inr hmark)),hu.gone rfl (Or.inr hmark)⟩

/-- A dead inode is left alone, a file without names destroyed and any other saved. -/
theorem inactive_cases :
    (x.1.mode=0 ∧ inactive env r dev x=⟨discardPrealloc x.1,x.2,false,false,true⟩) ∨
    (x.1.mode≠0 ∧ (inactive env r dev x).ip.gen=x.1.gen ∧ (inactive env r dev x).ip.mode=0 ∧
      Saved ((inactive env r dev x).ip,(inactive env r dev x).slot) ∧
      Gone ((inactive env r dev x).ip,(inactive env r dev x).slot)) ∨
    (x.1.mode≠0 ∧ (inactive env r dev x).freed=false ∧ (inactive env r dev x).ip.gen=x.1.gen ∧
      (inactive env r dev x).ip.mode=x.1.mode ∧
      (Saved x ∨ x.1.flag.modified=true →
        Saved ((inactive env r dev x).ip,(inactive env r dev x).slot))) := by
  have hmode : (discardPrealloc x.1).mode=x.1.mode := rfl
  by_cases h0 : x.1.mode=0
  · refine Or.inl ⟨h0,?_⟩
    unfold inactive
    rw [if_pos ⟨hmode.trans h0,hr⟩]
  have hnot : ¬((discardPrealloc x.1).mode=0 ∧ r.rdonly=false) := fun h => h0 h.1
  apply Or.inr
  unfold inactive
  rw [if_neg hnot]
  by_cases hl : (discardPrealloc x.1).links≤0
  · rw [if_pos hl]
    obtain ⟨hgen,hm,hs,hg⟩ := @settle_destroy env r dev hr (discardPrealloc x.1,x.2)
    exact Or.inl ⟨h0,hgen,hm,hs,hg⟩
  · rw [if_neg hl]
    refine Or.inr ⟨h0,rfl,settle_gen hr _,settle_mode env r dev _,?_⟩
    intro hx
    exact settle_saved hr hx

end

theorem vget_gen (env : Env) (mode : UInt16) (ei : Slot) :
    (vget env mode ei).gen=(if ei.generation=0 then env.random 0 else ei.generation) ∧
      (vget env mode ei).flag.modified=(ei.generation==0) := by
  unfold vget
  dsimp only
  split <;> split <;> split <;> simp_all [ei2i]

variable (x : Number)

def Number.current (slot : Slot) : UInt32 :=
  match x.core with
  | some c => c.ip.gen
  | none => slot.generation

/-- A file has its bit and keeps its generation number on disk, at the latest at its reclaim; a dead
one shows no file on disk. -/
structure Good (c : Core) (slot : Slot) : Prop where
  gen : c.ip.gen≠0
  saved : c.ip.mode≠0 → Saved (c.ip,slot) ∨ c.ip.flag.modified=true
  idle : c.ip.mode≠0 → c.idle=true → Saved (c.ip,slot)
  dead : c.ip.mode=0 → x.handles≠[] → Saved (c.ip,slot)
  used : c.ip.mode≠0 → x.used=true
  gone : c.ip.mode=0 → Gone (c.ip,slot)

def Follows (g : UInt32) : Prop :=
  ∀ h∈x.handles,h.gen≠0 ∧ h.incarnation≤x.incarnation ∧
    GenLater h.gen g (x.incarnation-h.incarnation)

structure Tracked (slot : Slot) : Prop where
  core : ∀ c,x.core=some c → Good x c slot
  free : x.core=none → slot.Live → x.used=true
  handle : Follows x (x.current slot)
  bound : x.incarnation≤2^31

variable {x : Number}

theorem Follows.ne_zero (h : Follows x g) (hne : x.handles≠[]) : g≠0 := by
  obtain ⟨a,l,hl⟩ := List.exists_cons_of_ne_nil hne
  obtain ⟨h0,_,hlater⟩ := h a (by rw [hl]; exact List.mem_cons_self)
  exact hlater.ne_zero h0

theorem Tracked.setCore {slot slot' : Slot} (h : Tracked x slot) {c c' : Core} (hc : x.core=some c)
    (hgen : c'.ip.gen=c.ip.gen) {used : Bool}
    (hgood : Good { x with core := some c', used := used } c' slot') :
    Tracked { x with core := some c', used := used } slot' := by
  refine ⟨?_,nofun,?_,h.bound⟩
  · intro d hd
    have hd' : c'=d := by simpa using hd
    exact hd' ▸ hgood
  · have hcur : x.current slot=c.ip.gen := by simp [Number.current,hc]
    have hf := h.handle
    rw [hcur,←hgen] at hf
    exact hf

variable {slot : Slot}

theorem Tracked.vget (h : Tracked x slot) (henv : env.Documented) (mode : UInt16) :
    (x.vget env mode slot).ip.gen≠0 ∧ Follows x (x.vget env mode slot).ip.gen := by
  unfold Number.vget
  cases hc : x.core with
  | some c =>
    have hf := h.handle
    simp only [Number.current,hc] at hf
    exact ⟨(h.core c hc).gen,hf⟩
  | none =>
    have hf := h.handle
    simp only [Number.current,hc] at hf
    rw [(vget_gen env mode slot).1]
    by_cases h0 : slot.generation=0
    · rw [if_pos h0]
      refine ⟨?_,?_⟩
      · intro hz
        have h1 := henv.1.1
        rw [hz] at h1
        exact absurd h1 (by decide)
      · intro a ha
        exact absurd h0 (hf.ne_zero (List.ne_nil_of_mem ha))
    · rw [if_neg h0]
      exact ⟨h0,hf⟩

theorem vget_live (env : Env) (ei : Slot) : (vget env 0 ei).mode≠0 ↔ ei.Live := by
  by_cases h : ei.linksCount=0
  · have h0 : (vget env 0 ei).mode=0 := by
      unfold vget
      simp only [ne_eq,not_true_eq_false,if_false]
      split <;> split <;> simp [ei2i,h]
    simp [h0,h,Slot.Live]
  · rw [vget_mode env ei h]
    exact ⟨fun hm => ⟨h,hm⟩,And.right⟩

theorem Tracked.load (h : Tracked x slot) (henv : env.Documented) :
    Tracked { x with core := some (x.vget env 0 slot) } slot := by
  obtain ⟨hgen,hfollow⟩ := h.vget henv 0
  cases hc : x.core with
  | some c =>
    have hg := h.core c hc
    have hv : x.vget env 0 slot={ c with idle := false } := by simp [Number.vget,hc]
    rw [hv]
    refine h.setCore hc ?_ ?_
    · rfl
    · exact ⟨hg.gen,hg.saved,fun _ => nofun,hg.dead,hg.used,hg.gone⟩
  | none =>
    have hv : x.vget env 0 slot=
        ⟨Reuse.vget env 0 slot,isDev (Reuse.vget env 0 slot).mode,false⟩ := by
      simp [Number.vget,hc]
    rw [hv] at hgen hfollow ⊢
    refine ⟨?_,nofun,hfollow,h.bound⟩
    intro d hd
    obtain rfl := Option.some.inj hd
    obtain ⟨hnum,hmod⟩ := vget_gen env 0 slot
    refine ⟨hgen,?_,fun _ => nofun,?_,?_,?_⟩
    · intro _
      by_cases h0 : slot.generation=0
      · exact Or.inr (by rw [hmod,h0]; rfl)
      · exact Or.inl (Or.inl (by rw [hnum,if_neg h0]))
    · intro _ hne
      have hf := h.handle
      simp only [Number.current,hc] at hf
      exact Or.inl (by rw [hnum,if_neg (hf.ne_zero hne)])
    · intro hm
      exact h.free hc ((vget_live env slot).mp hm)
    · intro hm
      exact Or.inl fun hlive => (vget_live env slot).mpr hlive hm

theorem dropSgid_ne_zero (env : Env) (mode : UInt16) : dropSgid env (typed mode)≠0 := by
  unfold dropSgid
  split
  · intro h
    have hand := congrArg (· &&& 0xF000) h
    simp only [UInt16.and_assoc] at hand
    change typed mode &&& 0xF000=0 at hand
    unfold typed at hand
    by_cases h0 : mode &&& 0xF000=0
    · rw [if_pos h0,or_and,h0] at hand
      exact absurd hand (by decide)
    · rw [if_neg h0] at hand
      exact h0 hand
  · exact typed_ne_zero mode

theorem Request.setMode_ne_zero (env : Env) (q : Request) : q.setMode env≠0 := by
  cases q with
  | mkdir mode => exact (Request.mkdir mode).mode_ne_zero
  | create mode => exact dropSgid_ne_zero env mode
  | symlink mode target => exact dropSgid_ne_zero env (0xA000 ||| mode)
  | mknod mode rdev => exact dropSgid_ne_zero env mode

theorem vallocBody_gen_ne_zero (henv : env.Documented) (ip : Inode) :
    (vallocBody env ip).gen≠0 := by
  change (if ip.gen=0 ∨ ip.gen+1=0 then env.random 1 else ip.gen+1)≠0
  split
  · intro hz
    have h1 := henv.2.1
    rw [hz] at h1
    exact absurd h1 (by decide)
  · rename_i h
    exact fun hz => h (Or.inr hz)

theorem Tracked.create (h : Tracked x slot) (henv : env.Documented) (hk : x.incarnation<2^31)
    (q : Request) :
    Tracked { x with
      core := some { x.vget env q.mode slot with
        ip := (q.build env (x.vget env q.mode slot) slot).1 }
      used := true
      incarnation := x.incarnation+1 } (q.build env (x.vget env q.mode slot) slot).2 := by
  obtain ⟨hgen,hfollow⟩ := h.vget henv q.mode
  generalize x.vget env q.mode slot=c at hgen hfollow ⊢
  have hu : Updated _ (q.build env c slot) := update_updated env (env.time 1) c.dev _
  have hmode : (q.build env c slot).1.mode≠0 := hu.mode ▸ q.setMode_ne_zero env
  have hsaved : Saved (q.build env c slot) := hu.saved (Or.inr (Or.inr rfl))
  have hnum : (q.build env c slot).1.gen=(vallocBody env c.ip).gen := hu.gen
  refine ⟨?_,nofun,?_,hk⟩
  · intro d hd
    obtain rfl := Option.some.inj hd
    exact ⟨hnum ▸ vallocBody_gen_ne_zero henv c.ip,fun _ => Or.inl hsaved,fun _ _ => hsaved,
      fun h0 => absurd h0 hmode,fun _ => rfl,fun h0 => absurd h0 hmode⟩
  · intro a ha
    obtain ⟨h0,hle,hlater⟩ := hfollow a ha
    refine ⟨h0,Nat.le_succ_of_le hle,?_⟩
    have hnext := hlater.valloc henv hgen (by omega)
    change GenLater a.gen (q.build env c slot).1.gen (x.incarnation+1-a.incarnation)
    rw [hnum,Nat.sub_add_comm hle]
    exact hnext

structure Gentle (ip ip' : Inode) : Prop where
  gen : ip'.gen=ip.gen
  mode : ip'.mode=0 ↔ ip.mode=0
  modified : ip.flag.modified=true → ip'.flag.modified=true
  lazymod : ip.flag.lazymod=true → ip'.flag.lazymod=true

theorem Use.gentle (u : Use) (ip : Inode) : Gentle ip (u.apply ip) := by
  cases u with
  | link =>
    rw [Use.apply]
    split <;> exact ⟨rfl,Iff.rfl,id,id⟩
  | change ip' =>
    refine ⟨rfl,?_,?_,?_⟩
    · change (if ip.mode=0 then 0 else if ip'.mode=0 then ip.mode else ip'.mode)=0 ↔ ip.mode=0
      by_cases h : ip.mode=0
      · simp [h]
      · by_cases h' : ip'.mode=0 <;> simp [h,h']
    · intro h
      simp [Use.apply,h]
    · intro h
      simp [Use.apply,h]

theorem Gentle.saved {ip ip' : Inode} (h : Gentle ip ip') (hs : Saved (ip,slot)) : Saved (ip',slot) := by
  rcases hs with hs | hs
  · exact Or.inl (hs.trans h.gen.symm)
  · exact Or.inr (h.lazymod hs)

variable {c : Core}

theorem Tracked.use (h : Tracked x slot) (hc : x.core=some c) {ip' : Inode} (hg : Gentle c.ip ip') :
    Tracked { x with core := some { c with ip := ip', idle := false } } slot := by
  have hgood := h.core c hc
  refine h.setCore hc hg.gen ⟨?_,?_,fun _ => nofun,?_,?_,?_⟩
  · exact hg.gen ▸ hgood.gen
  · intro hm
    rcases hgood.saved (fun h0 => hm (hg.mode.mpr h0)) with hs | hs
    · exact Or.inl (hg.saved hs)
    · exact Or.inr (hg.modified hs)
  · intro hm hne
    exact hg.saved (hgood.dead (hg.mode.mp hm) hne)
  · intro hm
    exact hgood.used fun h0 => hm (hg.mode.mpr h0)
  · intro hm
    rcases hgood.gone (hg.mode.mp hm) with hs | hs
    · exact Or.inl hs
    · exact Or.inr (hg.lazymod hs)

theorem Tracked.update (h : Tracked x slot) (hc : x.core=some c) (hu : Updated (c.ip,slot) y) :
    Tracked { x with core := some { c with ip := y.1 } } y.2 := by
  have hgood := h.core c hc
  have hmode : y.1.mode=c.ip.mode := hu.mode
  have hsaved : c.ip.mode≠0 → Saved y := by
    intro hm
    rcases hgood.saved hm with hs | hs
    · exact hu.saved (Or.inl hs)
    · exact hu.saved (Or.inr (Or.inl hs))
  refine h.setCore hc hu.gen ⟨?_,?_,?_,?_,?_,?_⟩
  · exact hu.gen ▸ hgood.gen
  · exact fun hm => Or.inl (hsaved (hmode ▸ hm))
  · exact fun hm _ => hsaved (hmode ▸ hm)
  · exact fun hm hne => hu.saved (Or.inl (hgood.dead (hmode ▸ hm) hne))
  · exact fun hm => hgood.used (hmode ▸ hm)
  · exact fun hm => hu.gone (hmode ▸ hm) (Or.inl (hgood.gone (hmode ▸ hm)))

theorem Tracked.inactive (h : Tracked x slot) (hc : x.core=some c) (hr : r.rdonly=false) :
    Tracked { x with
      core := some { c with ip := (inactive env r c.dev (c.ip,slot)).ip, idle := true }
      used := x.used && !(inactive env r c.dev (c.ip,slot)).freed }
      (inactive env r c.dev (c.ip,slot)).slot := by
  have hgood := h.core c hc
  rcases @inactive_cases env r c.dev hr (c.ip,slot) with
    ⟨h0,he⟩ | ⟨-,hgen,h0,hs,hg⟩ | ⟨hm,hf,hgen,hmode,hs⟩
  · rw [he]
    refine h.setCore hc ?_ ⟨hgood.gen,(absurd h0 ·),(absurd h0 ·),hgood.dead,(absurd h0 ·),hgood.gone⟩
    rfl
  · exact h.setCore hc hgen ⟨hgen ▸ hgood.gen,(absurd h0 ·),(absurd h0 ·),fun _ _ => hs,
      (absurd h0 ·),fun _ => hg⟩
  · have hsaved := hs (hgood.saved hm)
    refine h.setCore hc hgen ⟨hgen ▸ hgood.gen,fun _ => Or.inl hsaved,fun _ _ => hsaved,
      fun h0 => absurd (hmode ▸ h0) hm,fun _ => ?_,fun h0 => absurd (hmode ▸ h0) hm⟩
    rw [hf,hgood.used hm]
    rfl

theorem Tracked.reclaim (h : Tracked x slot) (hc : x.core=some c) (hidle : c.idle=true)
    (now : Time) :
    Tracked { x with core := none } (if c.ip.flag.lazymod then Reuse.update env now c.dev
        ({ c.ip with flag := { c.ip.flag with modified := true } },slot) else (c.ip,slot)).2 := by
  have hgood := h.core c hc
  have hcur : x.current slot=c.ip.gen := by simp [Number.current,hc]
  have hfollow := h.handle
  rw [hcur] at hfollow
  by_cases hl : c.ip.flag.lazymod=true
  · rw [if_pos hl]
    have hu := update_updated env now c.dev
      ({ c.ip with flag := { c.ip.flag with modified := true } },slot)
    obtain ⟨hgen,hmode⟩ := hu.slot.resolve_right fun hn => nomatch hn.2.1
    refine ⟨nofun,?_,?_,h.bound⟩
    · intro _ hlive
      exact hgood.used fun h0 => hlive.2 (hmode.trans h0)
    · intro a ha
      change _ ∧ _ ∧ GenLater a.gen (Reuse.update env now c.dev _).2.generation _
      rw [hgen]
      exact hfollow a ha
  · rw [if_neg hl]
    refine ⟨nofun,?_,?_,h.bound⟩
    · intro _ hlive
      apply hgood.used
      intro h0
      exact (hgood.gone h0).elim (fun hg => hg hlive) hl
    -- without a handle nothing has to be remembered, and a file is saved when it is idle
    intro a ha
    have hs : Saved (c.ip,slot) := by
      by_cases h0 : c.ip.mode=0
      · exact hgood.dead h0 (List.ne_nil_of_mem ha)
      · exact hgood.idle h0 hidle
    have hgen : slot.generation=c.ip.gen := hs.resolve_right hl
    change _ ∧ _ ∧ GenLater a.gen slot.generation (x.incarnation-a.incarnation)
    rw [hgen]
    exact hfollow a ha

theorem Tracked.vptofh (h : Tracked x slot) (hc : x.core=some c) (hm : c.ip.mode≠0) :
    Tracked { x with handles := ⟨c.ip.gen,x.incarnation⟩::x.handles } slot := by
  have hgood := h.core c hc
  have hcur : x.current slot=c.ip.gen := by simp [Number.current,hc]
  refine ⟨?_,h.free,?_,h.bound⟩
  · intro d hd
    obtain rfl := Option.some.inj (hc.symm.trans hd)
    exact ⟨hgood.gen,hgood.saved,hgood.idle,fun h0 => absurd h0 hm,hgood.used,hgood.gone⟩
  intro a ha
  rcases List.mem_cons.mp ha with rfl | ha
  · refine ⟨hgood.gen,Nat.le_refl _,?_⟩
    change GenLater c.ip.gen (x.current slot) (x.incarnation-x.incarnation)
    rw [hcur,Nat.sub_self]
    exact Later.refl c.ip.gen.toNat_lt
  · exact h.handle a ha

theorem Tracked.act {x y : Number} {slot slot' : Slot} {a : Act} (h : Tracked x slot)
    (hk : ∀ env q,a=.create env q → x.incarnation<2^31) (ha : act a slot x slot=some (y,slot')) : Tracked y slot' := by
  cases a with
  | load env =>
    obtain ⟨henv,he⟩ := Option.ite_none_right_eq_some.mp ha
    obtain ⟨rfl,rfl⟩ := Prod.mk.inj (Option.some.inj he)
    exact h.load henv
  | create env q =>
    obtain ⟨⟨henv,_⟩,he⟩ := Option.ite_none_right_eq_some.mp ha
    obtain ⟨rfl,rfl⟩ := Prod.mk.inj (Option.some.inj he)
    exact h.create henv (hk env q rfl) q
  | use u =>
    obtain ⟨c,hc,he⟩ := Option.map_eq_some_iff.mp ha
    obtain ⟨rfl,rfl⟩ := Prod.mk.inj he
    exact h.use hc (u.gentle c.ip)
  | unlink =>
    obtain ⟨c,hc,he⟩ := Option.map_eq_some_iff.mp ha
    obtain ⟨rfl,rfl⟩ := Prod.mk.inj he
    exact h.use hc ⟨rfl,Iff.rfl,id,id⟩
  | update env now =>
    obtain ⟨c,hc,he⟩ := Option.map_eq_some_iff.mp ha
    obtain ⟨rfl,rfl⟩ := Prod.mk.inj he
    exact h.update hc (update_updated env now c.dev _)
  | inactive env r =>
    obtain ⟨c,hc,he⟩ := Option.bind_eq_some_iff.mp ha
    obtain ⟨hr,he⟩ := Option.ite_none_right_eq_some.mp he
    obtain ⟨rfl,rfl⟩ := Prod.mk.inj (Option.some.inj he)
    exact h.inactive hc hr
  | reclaim env now =>
    obtain ⟨c,hc,he⟩ := Option.bind_eq_some_iff.mp ha
    obtain ⟨hidle,he⟩ := Option.ite_none_right_eq_some.mp he
    obtain ⟨rfl,rfl⟩ := Prod.mk.inj (Option.some.inj he)
    exact h.reclaim hc hidle now
  | vptofh =>
    obtain ⟨c,hc,he⟩ := Option.bind_eq_some_iff.mp ha
    obtain ⟨hm,he⟩ := Option.ite_none_right_eq_some.mp he
    obtain ⟨rfl,rfl⟩ := Prod.mk.inj (Option.some.inj he)
    exact h.vptofh hc hm

/-- The number is read where it is written, and no other number is written there. -/
def OwnSlot (fs : Mount.Fs) (ino : ℕ) : Prop :=
  fs.vgetSlot ino=fs.updateSlot ino ∧
    ∀ j,fs.ValidIno j → j≠ino → fs.updateSlot j≠fs.updateSlot ino

def Sparing (ino : ℕ) (s : Volume) (e : Event) : Prop :=
  e.ino=ino → ∀ env q,e.act=.create env q → (s.number ino).incarnation<2^31

/-- A handle leads to its own incarnation, which has its number and a name. -/
def HandlesSafe (fs : Mount.Fs) (ino : ℕ) (s : Volume) : Prop :=
  ∀ h∈(s.number ino).handles,∀ env wild ip,env.Documented →
    fhtovp fs s env wild ino h=some ip →
      (s.number ino).incarnation=h.incarnation ∧ (s.number ino).used=true ∧ 0 < ip.links

variable {fs : Mount.Fs}

theorem inBuffer_read (ht : Mount.Tables fs) (s : Volume) (wild : Slot)
    (h : fs.vgetSlot ino=fs.updateSlot ino) :
    s.read fs wild ino=s.table (fs.updateSlot ino) := by
  have hlt : (ino-1)%fs.ipb<fs.ipb := Nat.mod_lt _ (by have := ht.ipb; omega)
  have hin : (fs.updateSlot ino).offset+128≤fs.blocksize := by
    rw [ht.size]
    change 128*((ino-1)%fs.ipb)+128≤fs.ipb*128
    omega
  unfold Volume.read
  rw [h,if_pos hin]

theorem Event.tracked (ht : Mount.Tables fs) (h : OwnSlot fs ino)
    {s s' : Volume} {e : Event} (hs : Tracked (s.number ino) (s.table (fs.updateSlot ino)))
    (hk : Sparing ino s e) (he : e.next fs s=some s') :
    Tracked (s'.number ino) (s'.table (fs.updateSlot ino)) := by
  obtain ⟨hv,he⟩ := Option.ite_none_right_eq_some.mp he
  obtain ⟨⟨y,slot'⟩,ha,rfl⟩ := Option.map_eq_some_iff.mp he
  by_cases hi : e.ino=ino
  · subst hi
    dsimp only
    rw [Function.update_self,Function.update_self]
    rw [inBuffer_read ht s e.wild h.1] at ha
    exact hs.act (hk rfl) ha
  · dsimp only
    rw [Function.update_of_ne (Ne.symm hi),Function.update_of_ne (h.2 e.ino hv hi).symm]
    exact hs

theorem Tracked.handlesSafe (ht : Mount.Tables fs) (h : OwnSlot fs ino)
    {s : Volume} (hs : Tracked (s.number ino) (s.table (fs.updateSlot ino))) :
    HandlesSafe fs ino s := by
  intro a ha env wild ip henv hf
  obtain ⟨_,hf⟩ := Option.ite_none_left_eq_some.mp hf
  obtain ⟨hcheck,hip⟩ := Option.ite_none_left_eq_some.mp hf
  obtain rfl := Option.some.inj hip
  rw [inBuffer_read ht s wild h.1] at hcheck ⊢
  obtain ⟨hm,hcheck⟩ := not_or.mp hcheck
  obtain ⟨hgen,hlinks⟩ := not_or.mp hcheck
  have hload := hs.load henv
  obtain ⟨_,hle,hlater⟩ := hload.handle a ha
  refine ⟨?_,(hload.core _ rfl).used hm,Int.not_le.mp hlinks⟩
  by_contra hne
  have hb := hs.bound
  have hpos : 0<(s.number ino).incarnation-a.incarnation := by
    change a.incarnation≤(s.number ino).incarnation at hle
    omega
  have hback := Later.ne hlater (by change 2^30+((s.number ino).incarnation-a.incarnation)<2^32; omega)
    hpos
  apply hback
  exact congrArg UInt32.toNat (Decidable.not_not.mp hgen)

end Ext2fsX.Reuse
