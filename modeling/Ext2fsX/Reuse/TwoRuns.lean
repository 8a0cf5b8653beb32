import Ext2fsX.Reuse.Residue

namespace Ext2fsX.Reuse

open Framework

section Bytes

variable {s t : List UInt8}

theorem enc16_append {v w : UInt16} (h : Bytes.enc16 v.toNat++s=Bytes.enc16 w.toNat++t) :
    v=w ∧ s=t := by
  obtain ⟨hv,hs⟩ := List.append_inj h rfl
  refine ⟨?_,hs⟩
  simp only [Bytes.enc16,List.cons.injEq,and_true] at hv
  have hlo := congrArg UInt8.toNat hv.1
  have hhi := congrArg UInt8.toNat hv.2
  simp only [UInt8.toNat_ofNat'] at hlo hhi
  have hvlt := v.toNat_lt
  have hwlt := w.toNat_lt
  apply UInt16.toNat_inj.mp
  omega

theorem enc32_append {v w : UInt32} (h : Bytes.enc32 v.toNat++s=Bytes.enc32 w.toNat++t) :
    v=w ∧ s=t := by
  obtain ⟨hv,hs⟩ := List.append_inj h rfl
  refine ⟨?_,hs⟩
  simp only [Bytes.enc32,Bytes.enc16,List.cons_append,List.nil_append,List.cons.injEq,
    and_true] at hv
  obtain ⟨h0,h1,h2,h3⟩ := hv
  have h0 := congrArg UInt8.toNat h0
  have h1 := congrArg UInt8.toNat h1
  have h2 := congrArg UInt8.toNat h2
  have h3 := congrArg UInt8.toNat h3
  simp only [UInt8.toNat_ofNat'] at h0 h1 h2 h3
  have hvlt := v.toNat_lt
  have hwlt := w.toNat_lt
  apply UInt32.toNat_inj.mp
  omega

theorem enc32_flatMap : ∀ {l l' : List UInt32},l.length=l'.length →
    l.flatMap (fun v => Bytes.enc32 v.toNat)++s=l'.flatMap (fun v => Bytes.enc32 v.toNat)++t →
    l=l' ∧ s=t
  | [],[],_,h => ⟨rfl,h⟩
  | v::l,w::l',hlen,h => by
    simp only [List.flatMap_cons,List.append_assoc] at h
    obtain ⟨rfl,htail⟩ := enc32_append h
    obtain ⟨rfl,hrest⟩ := enc32_flatMap (Nat.succ.inj hlen) htail
    exact ⟨rfl,hrest⟩

theorem Slot.bytes_inj {a b : Slot} (h : a.bytes=b.bytes) : a=b := by
  obtain ⟨hmode,h⟩ := enc16_append h
  obtain ⟨huid,h⟩ := enc16_append h
  obtain ⟨hsize,h⟩ := enc32_append h
  obtain ⟨hatime,h⟩ := enc32_append h
  obtain ⟨hctime,h⟩ := enc32_append h
  obtain ⟨hmtime,h⟩ := enc32_append h
  obtain ⟨hdtime,h⟩ := enc32_append h
  obtain ⟨hgid,h⟩ := enc16_append h
  obtain ⟨hlinks,h⟩ := enc16_append h
  obtain ⟨hblocks,h⟩ := enc32_append h
  obtain ⟨hflags,h⟩ := enc32_append h
  obtain ⟨hosd1,h⟩ := enc32_append h
  obtain ⟨hblock,h⟩ := enc32_flatMap (by simp) h
  obtain ⟨hgeneration,h⟩ := enc32_append h
  obtain ⟨hfileAcl,h⟩ := enc32_append h
  obtain ⟨hdirAcl,h⟩ := enc32_append h
  obtain ⟨hfaddr,h⟩ := enc32_append h
  obtain ⟨hfrag,h⟩ := List.append_inj h rfl
  obtain ⟨hpad1,h⟩ := enc16_append h
  obtain ⟨huidHigh,h⟩ := enc16_append h
  obtain ⟨hgidHigh,h⟩ := enc16_append h
  have hreserved : a.reserved2=b.reserved2 := (enc32_append (s := []) (t := []) (by simpa using h)).1
  simp only [List.cons.injEq,and_true] at hfrag
  exact Slot.ext hmode huid hsize hatime hctime hmtime hdtime hgid hlinks hblocks hflags hosd1
    (Vector.toList_inj.mp hblock) hgeneration hfileAcl hdirAcl hfaddr hfrag.1 hfrag.2 hpad1
    huidHigh hgidHigh hreserved

end Bytes

def Env.withRandom (env : Env) (random : ℕ → UInt32) : Env := { env with random }

/-- What of the old slot reaches the new inode or stays in the slot. -/
structure Kept (q : Request) (a b : Slot) : Prop where
  flags : keptFlags a=keptFlags b
  atime : a.flags &&& noatimeFl≠0 → a.atime=b.atime
  osd1 : a.osd1=b.osd1
  fileAcl : a.fileAcl=b.fileAcl
  dirAcl : isReg q.mode=false → a.dirAcl=b.dirAcl
  faddr : a.faddr=b.faddr
  frag : a.frag=b.frag
  fsize : a.fsize=b.fsize
  pad1 : a.pad1=b.pad1
  reserved2 : a.reserved2=b.reserved2

def Clean (q : Request) (a b : Slot) : Prop :=
  if isDev q.mode ∧ ¬(a.generation=0 ∧ b.generation=0) then a=b else Kept q a b

variable {env : Env} {q : Request} {a b x : Slot}

theorem Request.run_withRandom {r : ℕ → UInt32} (hx : x.linksCount=0)
    (hgen : newGen env x.generation=newGen (env.withRandom r) x.generation) :
    q.run (env.withRandom r) x=q.run env x := by
  have hv : vallocd (env.withRandom r) x=vallocd env x := by
    unfold vallocd
    rw [hgen]
    rfl
  unfold run
  rw [make_eq,make_eq,valloc_free q.mode_ne_zero hx,valloc_free q.mode_ne_zero hx,hv]
  cases q <;> rfl

theorem Request.inCore_withRandom (r : ℕ → UInt32) : q.inCore (env.withRandom r)=q.inCore env := by
  cases q <;> rfl

theorem Request.onDisk_withRandom (r : ℕ → UInt32) : q.onDisk (env.withRandom r)=q.onDisk env := by
  cases q <;> rfl

theorem noatime_eq (h : keptFlags a=keptFlags b) : a.flags &&& noatimeFl=b.flags &&& noatimeFl := by
  rw [←keptFlags_noatime a,h,keptFlags_noatime b]

theorem merge_eq (h : Kept q a b) (c : Inode) (g : UInt32) : merge c g a=merge c g b := by
  have hbit := noatime_eq h.flags
  unfold merge
  rw [h.flags,hbit]
  by_cases hno : b.flags &&& noatimeFl=0
  · simp [hno]
  · rw [h.atime (hbit ▸ hno)]

theorem merge_i2ei_iff (env : Env) (c : Inode) {e : Inode} (hk : q.Keeps e) (g : UInt32) :
    merge c g a=merge c g b ∧ i2ei env (merge e g a) a=i2ei env (merge e g b) b ↔ Kept q a b := by
  constructor
  · rintro ⟨hcore,hdisk⟩
    have hflags : keptFlags a=keptFlags b := congrArg Inode.e2flags hcore
    have hsame : ∀ {α : Type} (f : Slot → α),(∀ ip x,f (i2ei env ip x)=f x) → f a=f b := by
      intro α f hf
      rw [←hf (merge e g a) a,hdisk,hf]
    constructor
    · exact hflags
    · intro hno
      have hatime := congrArg Inode.atime hcore
      have hbit := noatime_eq hflags
      simp only [merge,←hbit,beq_false_of_ne hno] at hatime
      exact hatime
    · exact hsame Slot.osd1 (fun _ _ => rfl)
    · exact hsame Slot.fileAcl (fun _ _ => rfl)
    · intro hreg
      have hdir := congrArg Slot.dirAcl hdisk
      have hmode : isReg e.mode=false := hk.reg.trans hreg
      simp only [i2ei,merge,hmode] at hdir
      exact hdir
    · exact hsame Slot.faddr (fun _ _ => rfl)
    · exact hsame Slot.frag (fun _ _ => rfl)
    · exact hsame Slot.fsize (fun _ _ => rfl)
    · exact hsame Slot.pad1 (fun _ _ => rfl)
    · exact hsame Slot.reserved2 (fun _ _ => rfl)
  · intro h
    refine ⟨merge_eq h c g,?_⟩
    have hdir : (if isReg e.mode then ((merge e g b).contents.size >>> 32).toUInt32 else a.dirAcl)=
        if isReg e.mode then ((merge e g b).contents.size >>> 32).toUInt32 else b.dirAcl := by
      cases hreg : isReg e.mode with
      | true => rfl
      | false => exact h.dirAcl (hk.reg.symm.trans hreg)
    rw [merge_eq h e g]
    exact Slot.ext rfl rfl rfl rfl rfl rfl rfl rfl rfl rfl rfl h.osd1 rfl rfl h.fileAcl hdir
      h.faddr h.frag h.fsize h.pad1 rfl rfl h.reserved2

theorem Request.nlink_ne_zero (q : Request) : q.nlink≠0 := by
  unfold nlink
  split <;> decide

theorem Request.flushed_ne (env env' : Env) (ha : a.linksCount=0) (hb : b.linksCount=0)
    (hwa : q.Written a) (hwb : ¬q.Written b) : q.flushed env a≠q.flushed env' b := by
  intro h
  have hlinks := congrArg Slot.linksCount h
  rw [(Request.formed env ha hwa).2,Request.flushed_unwritten env' hb hwb,hb] at hlinks
  exact q.nlink_ne_zero ((Request.Keeps.onDisk env q).nlink.symm.trans hlinks)

/-- Two free slots give the same inode, in core and on disk, exactly when they agree on
what is kept. -/
theorem new_inode_iff (env : Env) (r : ℕ → UInt32) (q : Request) (a b : Slot) (ha : a.linksCount=0)
    (hb : b.linksCount=0) (hgen : newGen env a.generation=newGen (env.withRandom r) b.generation) :
    (q.run env a).1=(q.run (env.withRandom r) b).1 ∧
      (q.flushed env a).bytes=(q.flushed (env.withRandom r) b).bytes ↔ Clean q a b := by
  unfold Clean
  by_cases hdev : isDev q.mode ∧ ¬(a.generation=0 ∧ b.generation=0)
  · rw [if_pos hdev]
    have hwritten : ∀ x : Slot,q.Written x ↔ x.generation=0 := by
      intro x
      unfold Request.Written
      rw [hdev.1]
      exact or_iff_right nofun
    constructor
    · rintro ⟨-,hbytes⟩
      have hslot := Slot.bytes_inj hbytes
      by_cases hwa : q.Written a
      · have hwb : ¬q.Written b := fun h => hdev.2 ⟨(hwritten a).mp hwa,(hwritten b).mp h⟩
        exact absurd hslot (Request.flushed_ne _ _ ha hb hwa hwb)
      · by_cases hwb : q.Written b
        · exact absurd hslot.symm (Request.flushed_ne _ _ hb ha hwb hwa)
        · rw [Request.flushed_unwritten _ ha hwa,Request.flushed_unwritten _ hb hwb] at hslot
          exact hslot
    · rintro rfl
      have hrun := Request.run_withRandom (q := q) ha hgen
      unfold Request.flushed
      rw [hrun]
      exact ⟨rfl,rfl⟩
  · rw [if_neg hdev]
    have hwritten : ∀ x : Slot,x=a ∨ x=b → q.Written x := by
      intro x hx
      cases h : isDev q.mode with
      | false => exact Or.inl h
      | true =>
        have hzero : a.generation=0 ∧ b.generation=0 :=
          Decidable.not_not.mp (fun hno => hdev ⟨h,hno⟩)
        rcases hx with rfl | rfl
        · exact Or.inr hzero.1
        · exact Or.inr hzero.2
    obtain ⟨hcoreA,hdiskA⟩ := Request.formed env ha (hwritten a (.inl rfl))
    obtain ⟨hcoreB,hdiskB⟩ := Request.formed (env.withRandom r) hb (hwritten b (.inr rfl))
    rw [Request.inCore_withRandom,←hgen] at hcoreB
    rw [Request.onDisk_withRandom,←hgen] at hdiskB
    rw [hcoreA,hcoreB,hdiskA,hdiskB]
    constructor
    · rintro ⟨hcore,hbytes⟩
      exact (merge_i2ei_iff env _ (Request.Keeps.onDisk env q) _).mp ⟨hcore,Slot.bytes_inj hbytes⟩
    · intro hkept
      obtain ⟨hcore,hdisk⟩ :=
        (merge_i2ei_iff env (q.inCore env) (Request.Keeps.onDisk env q)
          (newGen env a.generation)).mpr hkept
      exact ⟨hcore,congrArg Slot.bytes hdisk⟩

def sampleEnv : Env where
  noUid32 := false
  blocksize := 1024
  uid := 0
  rgid := 0
  parentUid := 501
  parentGid := 20
  isgroupmember := true
  suser := true
  whiteout := false
  uptime := 7000
  time := fun n => ⟨.ofNat (1000+n),0⟩
  random := fun _ => 99
  write := fun c => { c with size := 1024, blocks := 2, block := setFirst c.block 300 }

/-- A free slot: the links count is 0, the rest is what a removed file left. -/
def freeSlot (flags fileAcl dirAcl : UInt32) : Slot where
  mode := 0x41ED
  uid := 501
  size := 0
  atime := 400
  ctime := 500
  mtime := 500
  dtime := 500
  gid := 20
  linksCount := 0
  blocks := 0
  flags := flags
  osd1 := 0
  block := Vector.replicate 15 0
  generation := 12
  fileAcl := fileAcl
  dirAcl := dirAcl
  faddr := 0
  frag := 0
  fsize := 0
  pad1 := 0
  uidHigh := 0
  gidHigh := 0
  reserved2 := 0

theorem new_inode_create :
    ((Request.create 0x1A4).run sampleEnv (freeSlot 0 0 5)).1=
        ((Request.create 0x1A4).run (sampleEnv.withRandom (fun _ => 3))
          { freeSlot 0 0 0 with uid := 0, atime := 9, mode := 0x81A4 }).1 ∧
      ((Request.create 0x1A4).flushed sampleEnv (freeSlot 0 0 5)).bytes=
        ((Request.create 0x1A4).flushed (sampleEnv.withRandom (fun _ => 3))
          { freeSlot 0 0 0 with uid := 0, atime := 9, mode := 0x81A4 }).bytes := by
  apply (new_inode_iff sampleEnv (fun _ => 3) (.create 0x1A4) (freeSlot 0 0 5)
    { freeSlot 0 0 0 with uid := 0, atime := 9, mode := 0x81A4 } rfl rfl rfl).mpr
  exact ⟨rfl,fun h => absurd rfl h,rfl,rfl,nofun,rfl,rfl,rfl,rfl,rfl⟩

/-- A new directory takes the index flag, the ACL block and the high size word of the file before
it, and a new device is never written over it. -/
theorem old_slot_survives :
    newGen sampleEnv (freeSlot 0x1000 77 5).generation=newGen sampleEnv (freeSlot 0 0 0).generation ∧
      ((Request.mkdir 0x1ED).run sampleEnv (freeSlot 0x1000 77 5)).1.e2flags=0x1000 ∧
      ((Request.mkdir 0x1ED).run sampleEnv (freeSlot 0 0 0)).1.e2flags=0 ∧
      ((Request.mkdir 0x1ED).flushed sampleEnv (freeSlot 0x1000 77 5)).flags=0x1000 ∧
      ((Request.mkdir 0x1ED).flushed sampleEnv (freeSlot 0x1000 77 5)).fileAcl=77 ∧
      ((Request.mkdir 0x1ED).flushed sampleEnv (freeSlot 0x1000 77 5)).dirAcl=5 ∧
      ((Request.mkdir 0x1ED).flushed sampleEnv (freeSlot 0x1000 77 5)).bytes≠
        ((Request.mkdir 0x1ED).flushed sampleEnv (freeSlot 0 0 0)).bytes ∧
      (Request.mknod 0x2180 (some 0x103)).flushed sampleEnv (freeSlot 0x1000 77 5)=
        freeSlot 0x1000 77 5 := by
  refine ⟨rfl,rfl,rfl,rfl,rfl,rfl,?_,?_⟩
  · decide +kernel
  · decide +kernel

end Ext2fsX.Reuse
