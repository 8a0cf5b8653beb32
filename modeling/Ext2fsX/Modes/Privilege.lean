import Ext2fsX.Modes.Attributes
import Ext2fsX.Reuse.Residue

namespace Ext2fsX.Modes

def Plain (mode : UInt16) : Prop := mode &&& setidBits=0

deriving instance Decidable for Plain

variable {v : Vnode} {ans : Answers} {uid : UInt32} {f : File}

theorem writeBuffers_mode (n k : ℕ) (x : File × Uio) :
    (writeBuffers v ans n k x).1.1.mode=x.1.mode := by
  induction n generalizing k x with
  | zero => rfl
  | succ n ih =>
    rw [writeBuffers]
    split
    · rfl
    dsimp only
    split
    · rfl
    · split
      · rfl
      · split
        · rfl
        · rw [ih]

theorem write_mode (hu : uid≠0) (io : Ioflag) (u : Uio) :
    (writeBody v ans uid io f u).file.mode=f.mode := by
  have hs : vfsContextSuser uid≠0 := by simp [vfsContextSuser,hu]
  have hx : (if v.ubc then writeCluster v ans f u
      else writeBuffers v ans u.resid 0 (f,u)).1.1.mode=f.mode := by
    split
    · rfl
    · exact writeBuffers_mode u.resid 0 (f,u)
  unfold writeBody
  generalize (if v.ubc then writeCluster v ans f u else writeBuffers v ans u.resid 0 (f,u))=x
    at hx ⊢
  have hkeep : ¬(x.1.2.resid<u.resid ∧ vfsContextSuser uid=0) := fun h => hs h.2
  dsimp only
  rw [if_neg hkeep]
  split
  · split <;> exact hx
  · exact hx

/-- The answers with which a write stores one byte and then fails. -/
def oneByte : Answers where
  balloc _ := none
  bufResid _ := 0
  uiomove _ := some (1,.other 5)
  cluster := (1,none)
  truncate := none
  update := none

theorem allocLoop_error (v : Vnode) (n k : ℕ) (a : Alloc) (h : a.error=none) :
    (allocLoop v oneByte n k a).error=none := by
  induction n generalizing k a with
  | zero => exact h
  | succ n ih =>
    rw [allocLoop]
    split
    · exact h
    · exact ih (k+1) _ rfl

theorem oneByte_stored (v : Vnode) (uid : UInt32) (io : Ioflag) (f : File) {u : Uio}
    (h : u.resid≠0) : (writeBody v oneByte uid io f u).stored=1 := by
  have hx : (if v.ubc then writeCluster v oneByte f u
      else writeBuffers v oneByte u.resid 0 (f,u)).1.2.resid=u.resid-1 := by
    split
    · have he := allocLoop_error v u.resid 0 ⟨u.resid,u.offset,f.size,none⟩ rfl
      unfold writeCluster
      dsimp only
      rw [he]
      change u.resid-0-min 1 (u.resid-0)+0=u.resid-1
      omega
    obtain ⟨n,hn⟩ := Nat.exists_eq_succ_of_ne_zero h
    have hlt := Nat.mod_lt u.offset v.pos
    have hx : ¬min (min (v.blocksize-u.offset%v.blocksize) u.resid)
        (v.blocksize-oneByte.bufResid 0)=0 := by
      change ¬min (min (v.blocksize-u.offset%v.blocksize) u.resid) (v.blocksize-0)=0
      omega
    rw [hn]
    rw [writeBuffers,if_neg h]
    dsimp only [oneByte] at hx ⊢
    rw [if_neg hx]
    dsimp only
    omega
  unfold writeBody
  dsimp only
  rw [hx]
  split
  · split <;> exact Nat.sub_sub_self (Nat.one_le_iff_ne_zero.mpr h)
  · exact Nat.sub_sub_self (Nat.one_le_iff_ne_zero.mpr h)

/-- The write is not refused before its first byte. -/
def Writes (v : Vnode) (io : Ioflag) (f : File) (u : Uio) : Prop :=
  u.resid≠0 ∧
    match v.vtype with
    | .reg => f.flags &&& 0x20=0 ∨ io.append=true ∨ u.offset=f.size
    | .lnk => True
    | .dir => io.sync=true
    | .other => False

theorem writeInternal_of_writes {io : Ioflag} {u : Uio} (h : Writes v io f u) :
    ∃ u',u'.resid=u.resid ∧
      ∀ ans uid,writeInternal v ans uid io f u=some (writeBody v ans uid io f u') := by
  obtain ⟨h0,ht⟩ := h
  unfold writeInternal
  simp only [if_neg h0]
  cases hv : v.vtype with
  | reg =>
    rw [hv] at ht
    refine ⟨if io.append then { u with offset := f.size } else u,by split <;> rfl,?_⟩
    intro ans uid
    have hnot : ¬(f.flags &&& 0x20≠0 ∧
        (if io.append then { u with offset := f.size } else u).offset≠f.size) := by
      rintro ⟨hf,hne⟩
      rcases ht with ht | ht | ht
      · exact hf ht
      · simp [ht] at hne
      · cases hio : io.append <;> simp [hio,ht] at hne
    exact if_neg hnot
  | lnk => exact ⟨u,rfl,fun _ _ => rfl⟩
  | dir =>
    rw [hv] at ht
    exact ⟨u,rfl,fun _ _ => if_pos ht⟩
  | other =>
    rw [hv] at ht
    exact absurd ht id

theorem stored_of_not_writes {io : Ioflag} {u : Uio} (h : ¬Writes v io f u) {o : Outcome}
    (ho : writeInternal v ans uid io f u=some o) : o.stored=0 := by
  unfold writeInternal at ho
  by_cases h0 : u.resid=0
  · rw [if_pos h0] at ho
    rw [←Option.some.inj ho]
  rw [if_neg h0] at ho
  have ht : ¬(match v.vtype with
      | .reg => f.flags &&& 0x20=0 ∨ io.append=true ∨ u.offset=f.size
      | .lnk => True
      | .dir => io.sync=true
      | .other => False) := fun ht => h ⟨h0,ht⟩
  cases hv : v.vtype with
  | reg =>
    rw [hv] at ho ht
    obtain ⟨hf,ht⟩ := not_or.mp ht
    obtain ⟨ha,hne⟩ := not_or.mp ht
    rw [if_neg ha,if_pos ⟨hf,hne⟩] at ho
    rw [←Option.some.inj ho]
  | lnk =>
    rw [hv] at ht
    exact absurd trivial ht
  | dir =>
    rw [hv] at ho ht
    rw [if_neg ht] at ho
    exact nomatch ho
  | other =>
    rw [hv] at ho
    exact nomatch ho

theorem write_plain_iff (hu : uid≠0) (io : Ioflag) (u : Uio) :
    (∀ ans o,writeInternal v ans uid io f u=some o → 0<o.stored → Plain o.file.mode) ↔
      (Writes v io f u → Plain f.mode) := by
  constructor
  · intro hall hw
    obtain ⟨u',hr,he⟩ := writeInternal_of_writes hw
    have hstored := oneByte_stored v uid io f (hr ▸ hw.1)
    have hp := hall oneByte _ (he oneByte uid) (by rw [hstored]; exact Nat.one_pos)
    rw [write_mode hu] at hp
    exact hp
  · intro hcond ans o ho hpos
    by_cases hw : Writes v io f u
    · obtain ⟨u',_,he⟩ := writeInternal_of_writes hw
      rw [he ans uid] at ho
      rw [←Option.some.inj ho,write_mode hu]
      exact hcond hw
    · have h0 := stored_of_not_writes hw ho
      omega

variable (a : Attr)

def Changes (f : File) : Prop :=
  (a.applyFlags f).locked=false ∧
    ((a.nuid≠vnoval ∧ a.nuid≠f.uid) ∨ (a.ngid≠vnoval ∧ a.ngid≠f.gid))

def Attr.Early : Prop := a.mode=none ∨ a.dataSize.isSome=true ∨ a.times=true

/-- `ext2_setattr` can come to the mode. -/
def Attr.Reaches (v : Vnode) (a : Attr) : Prop := a.dataSize=none ∨ v.vtype≠.dir

theorem chmod_plain (hm : v.ignoreOwnership=false) (m : UInt16) :
    Plain (chmod v uid m f).mode ↔ Plain m := by
  have hlow : (f.mode &&& ~~~0xFFF) &&& setidBits=0 := by
    rw [UInt16.and_assoc]
    exact UInt16.and_zero
  have hhigh : (m &&& 0xFFF) &&& setidBits=m &&& setidBits := by
    rw [UInt16.and_assoc]
    rfl
  unfold chmod Plain
  rw [hm,if_neg (by simp)]
  rw [Reuse.or_and,hlow,hhigh,UInt16.zero_or]

theorem chown_spec (hu : uid≠0) (hm : v.ignoreOwnership=false) (nuid ngid : UInt32) :
    chown v uid nuid ngid f={ f with
      uid := if nuid=vnoval then f.uid else nuid
      gid := if ngid=vnoval then f.gid else ngid } := by
  unfold chown
  rw [hm,if_neg (by simp),if_neg (fun h => hu h.2)]

theorem setRest_owner :
    (setRest v ans uid a f).1.uid=f.uid ∧ (setRest v ans uid a f).1.gid=f.gid := by
  have hchmod : ∀ m (g : File),(chmod v uid m g).uid=g.uid ∧ (chmod v uid m g).gid=g.gid := by
    intro m g
    unfold chmod
    split <;> exact ⟨rfl,rfl⟩
  unfold setRest
  cases a.dataSize with
  | none => cases a.times <;> cases ans.update <;> cases a.mode <;> simp [hchmod]
  | some n =>
    dsimp only
    split
    · exact ⟨rfl,rfl⟩
    · cases ans.truncate <;> cases a.times <;> cases ans.update <;> cases a.mode <;> simp [hchmod]

theorem setRest_mode : ((setRest v ans uid a f).1.mode=f.mode ∧ a.Early) ∨
      ∃ m g,a.mode=some m ∧ a.Reaches v ∧ (setRest v ans uid a f).1=chmod v uid m g := by
  unfold setRest Attr.Early Attr.Reaches
  cases a.dataSize with
  | none => cases a.times <;> cases ans.update <;> cases a.mode <;> simp
  | some n =>
    by_cases hv : v.vtype=.dir
    · simp [hv]
    · cases ans.truncate <;> cases a.times <;> cases ans.update <;> cases a.mode <;> simp [hv]

/-- The answers with which `ext2_setattr` fails as soon as it can. -/
def failing : Answers := { oneByte with truncate := some (.other 5), update := some (.other 5) }

theorem setRest_failing {a : Attr} (h : a.Early) : (setRest v failing uid a f).1.mode=f.mode := by
  unfold setRest failing
  unfold Attr.Early at h
  cases hd : a.dataSize with
  | none =>
    rw [hd] at h
    cases ht : a.times with
    | true => rfl
    | false =>
      rw [ht] at h
      have hm : a.mode=none := by simpa using h
      rw [hm]
  | some n =>
    dsimp only
    split <;> rfl

theorem setRest_reaches {a : Attr} {m : UInt16} (hm : a.mode=some m) (hr : a.Reaches v) :
    ∃ g,(setRest v oneByte uid a f).1=chmod v uid m g := by
  unfold setRest oneByte
  unfold Attr.Reaches at hr
  rw [hm]
  cases hd : a.dataSize with
  | none => cases a.times <;> exact ⟨f,rfl⟩
  | some n =>
    rw [hd] at hr
    have hv : v.vtype≠.dir := by simpa using hr
    dsimp only
    rw [if_neg hv]
    cases a.times <;> exact ⟨{ f with size := n },rfl⟩

/-- The file after `ext2_chown` by somebody else than the superuser. -/
def Attr.owned (f : File) : File :=
  { a.applyFlags f with
    uid := if a.nuid=vnoval then f.uid else a.nuid
    gid := if a.ngid=vnoval then f.gid else a.ngid }

theorem setattr_eq (hu : uid≠0) (hm : v.ignoreOwnership=false) (a : Attr) :
    setattr v ans uid a f=if (a.applyFlags f).locked then (a.applyFlags f,some .eperm)
      else setRest v ans uid a (a.owned f) := by
  have hown : (if a.nuid≠vnoval ∨ a.ngid≠vnoval
      then chown v uid a.nuid a.ngid (a.applyFlags f) else a.applyFlags f)=a.owned f := by
    rw [chown_spec hu hm]
    split
    · rfl
    · rename_i h
      obtain ⟨hn,hg⟩ := not_or.mp h
      unfold Attr.owned
      rw [if_pos (not_not.mp hn),if_pos (not_not.mp hg)]
      rfl
  unfold setattr
  dsimp only
  rw [hown]

theorem owned_changes (f : File) : ((a.owned f).uid≠f.uid ∨ (a.owned f).gid≠f.gid) ↔
      ((a.nuid≠vnoval ∧ a.nuid≠f.uid) ∨ (a.ngid≠vnoval ∧ a.ngid≠f.gid)) := by
  have hone : ∀ x y : UInt32,(if x=vnoval then y else x)≠y ↔ x≠vnoval ∧ x≠y := by
    intro x y
    by_cases h : x=vnoval <;> simp [h]
  unfold Attr.owned
  rw [hone,hone]

theorem setattr_changes (hu : uid≠0) (hm : v.ignoreOwnership=false) (a : Attr) :
    ((setattr v ans uid a f).1.uid≠f.uid ∨ (setattr v ans uid a f).1.gid≠f.gid) ↔ Changes a f := by
  rw [setattr_eq hu hm]
  cases hl : (a.applyFlags f).locked with
  | true =>
    have hn : (a.applyFlags f).uid=f.uid := rfl
    have hg : (a.applyFlags f).gid=f.gid := rfl
    simp [Changes,hl,hn,hg]
  | false =>
    obtain ⟨hn,hg⟩ := @setRest_owner v ans uid (a.owned f) a
    rw [if_neg (by simp),hn,hg,owned_changes]
    simp [Changes,hl]

def AttrOk (v : Vnode) (f : File) (a : Attr) : Prop :=
  Changes a f → (a.Early → Plain f.mode) ∧ ∀ m,a.mode=some m → a.Reaches v → Plain m

theorem setattr_plain_iff (hu : uid≠0) (hm : v.ignoreOwnership=false) (a : Attr) :
    (∀ ans,((setattr v ans uid a f).1.uid≠f.uid ∨ (setattr v ans uid a f).1.gid≠f.gid) →
      Plain (setattr v ans uid a f).1.mode) ↔ AttrOk v f a := by
  have hmode : (a.owned f).mode=f.mode := rfl
  constructor
  · intro hall hc
    have hrest : ∀ ans,Plain (setRest v ans uid a (a.owned f)).1.mode := by
      intro ans
      have hp := hall ans ((setattr_changes hu hm a).mpr hc)
      rw [setattr_eq hu hm,if_neg (by simp [hc.1])] at hp
      exact hp
    refine ⟨?_,?_⟩
    · intro he
      have hp := hrest failing
      rw [setRest_failing he] at hp
      exact hp
    · intro m hsome hr
      obtain ⟨g,hg⟩ := @setRest_reaches v uid (a.owned f) a m hsome hr
      have hp := hrest oneByte
      rw [hg,chmod_plain hm] at hp
      exact hp
  · intro hok ans hch
    have hc := (setattr_changes hu hm a).mp hch
    obtain ⟨hearly,hset⟩ := hok hc
    rw [setattr_eq hu hm,if_neg (by simp [hc.1])]
    rcases @setRest_mode v ans uid (a.owned f) a with ⟨hkeep,he⟩ | ⟨m,g,hsome,hr,hg⟩
    · rw [hkeep,hmode]
      exact hearly he
    · rw [hg,chmod_plain hm]
      exact hset m hsome hr

def Request.Ok (v : Vnode) (f : File) : Request → Prop
  | write _ io u => Writes v io f u → Plain f.mode
  | setattr _ a => AttrOk v f a

theorem Request.plain_iff (hm : v.ignoreOwnership=false) (q : Request) (hu : q.caller≠0) :
    (∀ ans,∀ r∈q.run v ans f,r.2=true → Plain r.1.mode) ↔ q.Ok v f := by
  cases q with
  | write uid io u =>
    change _ ↔ (Writes v io f u → Plain f.mode)
    rw [←write_plain_iff hu io u]
    constructor
    · intro h ans o ho hpos
      exact h ans (o.file,decide (0<o.stored)) (Option.map_eq_some_iff.mpr ⟨o,ho,rfl⟩)
        (decide_eq_true hpos)
    · intro h ans r hr ht
      obtain ⟨o,ho,rfl⟩ := Option.map_eq_some_iff.mp hr
      exact h ans o ho (of_decide_eq_true ht)
  | setattr uid a =>
    change _ ↔ AttrOk v f a
    rw [←setattr_plain_iff hu hm a]
    constructor
    · intro h ans hch
      exact h ans _ rfl (decide_eq_true hch)
    · intro h ans r hr ht
      obtain rfl := Option.some.inj hr
      exact h ans (of_decide_eq_true ht)

/-- Each request that stores a byte or changes the owner leaves a plain mode, whatever the answers.
-/
def Safe (v : Vnode) : File → List Request → Prop
  | _,[] => True
  | f,q::qs => ∀ ans,∀ r∈q.run v ans f,(r.2=true → Plain r.1.mode) ∧ Safe v r.1 qs

def AllOk (v : Vnode) : File → List Request → Prop
  | _,[] => True
  | f,q::qs => q.Ok v f ∧ ∀ ans,∀ r∈q.run v ans f,AllOk v r.1 qs

/-- The runs of callers who are not the superuser. -/
theorem setid_cleared_iff (v : Vnode) (hm : v.ignoreOwnership=false) (f : File) (qs : List Request)
    (hu : ∀ q∈qs,q.caller≠0) : Safe v f qs ↔ AllOk v f qs := by
  induction qs generalizing f with
  | nil => exact Iff.rfl
  | cons q qs ih =>
    have hq := hu q List.mem_cons_self
    have hrest : ∀ g,Safe v g qs ↔ AllOk v g qs :=
      fun g => ih g (fun p hp => hu p (List.mem_cons_of_mem q hp))
    change (∀ ans,∀ r∈q.run v ans f,(r.2=true → Plain r.1.mode) ∧ Safe v r.1 qs) ↔
      (q.Ok v f ∧ ∀ ans,∀ r∈q.run v ans f,AllOk v r.1 qs)
    rw [←q.plain_iff hm hq]
    constructor
    · intro h
      exact ⟨fun ans r hr => (h ans r hr).1,fun ans r hr => (hrest r.1).mp (h ans r hr).2⟩
    · intro h ans r hr
      exact ⟨h.1 ans r hr,(hrest r.1).mpr (h.2 ans r hr)⟩

def sampleVnode : Vnode := ⟨1024,Nat.succ_pos 1023,.reg,true,false⟩

def sampleFile (mode : UInt16) : File := ⟨mode,501,20,0,100⟩

def sampleRun : List Request :=
  [.write 501 ⟨false,false,false⟩ ⟨0,10⟩,.setattr 501 ⟨none,none,some 12,none,false,none⟩]

theorem setid_cleared_sample : Safe sampleVnode (sampleFile 0x81ED) sampleRun := by
  apply (setid_cleared_iff sampleVnode rfl (sampleFile 0x81ED) sampleRun (by decide)).mpr
  refine ⟨fun _ => (by decide : Plain 0x81ED),?_⟩
  intro ans r hr
  refine ⟨fun _ => ⟨fun _ => ?_,nofun⟩,fun _ _ _ => trivial⟩
  have hw : some ((writeBody sampleVnode ans 501 ⟨false,false,false⟩ (sampleFile 0x81ED)
      ⟨0,10⟩).file,_)=some r := hr
  rw [←Option.some.inj hw,write_mode (by decide)]
  exact (by decide : Plain 0x81ED)

/-- A file that user 501 writes to, and gives to group 12, stays privileged; the superuser clears
both bits. -/
theorem setid_kept :
    let f : File := sampleFile 0x8DED
    ((Request.write 501 ⟨false,false,false⟩ ⟨0,10⟩).run sampleVnode oneByte f).map
        (fun r => (r.1.mode,r.2))=some (0x8DED,true) ∧
      ((Request.setattr 501 ⟨none,none,some 12,none,false,none⟩).run sampleVnode oneByte f).map
        (fun r => (r.1.mode,r.2))=some (0x8DED,true) ∧
      ((Request.write 0 ⟨false,false,false⟩ ⟨0,10⟩).run sampleVnode oneByte f).map
        (fun r => (r.1.mode,r.2))=some (0x81ED,true) ∧
      ((Request.setattr 0 ⟨none,none,some 12,none,false,none⟩).run sampleVnode oneByte f).map
        (fun r => (r.1.mode,r.2))=some (0x81ED,true) := by
  decide +kernel

end Ext2fsX.Modes
