import Ext2fsX.Mount.InodeTable

namespace Ext2fsX.Mount

/-- What a mount obtains: the buffer of the superblock, a buffer of descriptors, its `B_LOCKED`,
`ump`, `um_e2fs`, `s_es` and `s_group_desc`. -/
inductive Resource where
  | superblock
  | desc (i : ℕ)
  | lock (i : ℕ)
  | ump
  | fs
  | es
  | array
  deriving DecidableEq

inductive Use where
  | get (r : Resource)
  | put (r : Resource)
  deriving DecidableEq

open Use Resource

def lckBuf (i : ℕ) : List Use := [get (lock i),put (desc i)]

def ulckBuf (i : ℕ) : List Use := [put (lock i),get (desc i),put (desc i)]

def readDesc (i : ℕ) : List Use := get (desc i)::lckBuf i

variable (env : Env) (es : Superblock)

/-- In its order, and its error. The buffer of a read that fails is obtained as well. -/
def computeUses : List Use × Option Stop :=
  let n := (geometry env es).dbpg
  let free (i : ℕ) := (List.range i).flatMap ulckBuf++[put array]
  match (List.range n).find? (!env.readable ·) with
  | some i => (get array::(List.range i).flatMap readDesc++get (desc i)::free i,some .eio)
  | none =>
    let uses := get array::(List.range n).flatMap readDesc
    match checkDescriptors env (geometry env es) (geometry env es).groupsCount 0
        es.firstDataBlock.toNat 0 with
    | none => (uses++free n,some .eio)
    | some _ => (uses,if inodeFieldsOk es (geometry env es) then none else some .einval)

/-- `buf_invalidateblks`, `spec_ioctl` or `vfs_init_io_attributes` fails, or the superblock cannot
be read. -/
inductive Start where
  | refused (e : Stop)
  | unread (e : Stop)
  | read

def early (e : Stop) : List Use × Option Stop := ([get superblock,put superblock],some e)

/-- `ext2_mountfs`; no error also stands for the division by zero. -/
def mountUses : Start → List Use × Option Stop
  | .refused e => ([],some e)
  | .unread e => early e
  | .read =>
    if !checkSbCompat es env.ronly then early .einval
    else if !isClean es.state && !(env.ronly || env.force) then early .eperm
    else if overPage env es.logBlockSize then early .enotsup
    else if (geometry env es).divides then ([],none)
    else
      let r := computeUses env es
      match r.2 with
      | none => (r.1,none)
      | some e => ([get superblock,get ump,get fs,get .es]++r.1++
          [put superblock,put .es,put fs,put ump],some e)

/-- Everything has been given back as often as it was obtained. -/
def GivenBack (l : List Use) : Prop := ∀ r,l.count (put r)=l.count (get r)

/-- Every descriptor block can be read, and the fields about inodes are right unless a descriptor is
rejected. -/
def DescriptorsOk : Prop :=
  (∀ i<(geometry env es).dbpg,env.readable i=true) ∧
    (checkDescriptors env (geometry env es) (geometry env es).groupsCount 0
      es.firstDataBlock.toNat 0≠none → inodeFieldsOk es (geometry env es)=true)

/-- The mount comes to the descriptors. -/
def ReadsDescriptors : Start → Prop
  | .read => checkSbCompat es env.ronly=true ∧ (isClean es.state || env.ronly || env.force)=true ∧
      overPage env es.logBlockSize=false ∧ (geometry env es).divides=false
  | _ => False

variable {env es}

theorem readDesc_ulckBuf (r : Resource) (n : ℕ) :
    ((List.range n).flatMap readDesc).count (put r)+((List.range n).flatMap ulckBuf).count (put r)=
      ((List.range n).flatMap readDesc).count (get r)+
        ((List.range n).flatMap ulckBuf).count (get r) := by
  induction n with
  | zero => rfl
  | succ n ih =>
    simp only [List.range_succ,List.flatMap_append,List.count_append,List.flatMap_singleton]
    simp only [readDesc,lckBuf,ulckBuf,List.count_cons,List.count_nil]
    simp
    omega

theorem count_array (n : ℕ) : ((List.range n).flatMap readDesc).count (put array)=0 ∧
    ((List.range n).flatMap readDesc).count (get array)=0 := by
  simp [List.count_eq_zero,readDesc,lckBuf]

theorem givenBack_iff :
    (∀ e,(computeUses env es).2=some e → GivenBack ([get superblock,get ump,get fs,get .es]++
      (computeUses env es).1++[put superblock,put .es,put fs,put ump])) ↔ DescriptorsOk env es := by
  unfold computeUses
  dsimp only
  cases hf : (List.range (geometry env es).dbpg).find? (!env.readable ·) with
  | some i =>
    have hpair := readDesc_ulckBuf (desc i) i
    apply iff_of_false
    · intro hg
      have hd := hg _ rfl (desc i)
      simp at hd
      omega
    · intro hd
      have hi := hd.1 i (List.mem_range.mp (List.mem_of_find?_eq_some hf))
      have hr := List.find?_some hf
      simp [hi] at hr
  | none =>
    have hread : ∀ i<(geometry env es).dbpg,env.readable i=true := by simpa using hf
    cases hc : checkDescriptors env (geometry env es) (geometry env es).groupsCount 0
        es.firstDataBlock.toNat 0 with
    | none =>
      refine iff_of_true (fun _ _ r => ?_) ⟨hread,fun hn => absurd hc hn⟩
      have hpair := readDesc_ulckBuf r (geometry env es).dbpg
      simp [List.count_cons]
      omega
    | some d =>
      cases hi : inodeFieldsOk es (geometry env es) with
      | true => exact iff_of_true (fun _ => nofun) ⟨hread,fun _ => hi⟩
      | false =>
        apply iff_of_false
        · intro hg
          have ha := hg _ rfl array
          simp [count_array] at ha
        · intro hd
          have hk := hd.2 (by simp [hc])
          simp [hi] at hk

/-- A failed mount has given back what it obtained, unless it comes to a descriptor block that
cannot be read, or to fields about inodes that are wrong. -/
theorem mount_givenBack_iff (env : Env) (es : Superblock) (a : Start) :
    ((mountUses env es a).2≠none → GivenBack (mountUses env es a).1) ↔
      (ReadsDescriptors env es a → DescriptorsOk env es) := by
  have hearly (e : Stop) : GivenBack (early e).1 := fun r => by simp [early,List.count_cons]
  cases a with
  | refused e => exact iff_of_true (fun _ _ => rfl) nofun
  | unread e => exact iff_of_true (fun _ => hearly e) nofun
  | read =>
    unfold mountUses
    by_cases hcompat : checkSbCompat es env.ronly=true
    swap
    · rw [if_pos (by simp [hcompat])]
      exact iff_of_true (fun _ => hearly _) fun hr => absurd hr.1 hcompat
    rw [if_neg (by simp [hcompat])]
    by_cases hclean : (isClean es.state || env.ronly || env.force)=true
    swap
    · rw [if_pos (by simp_all)]
      exact iff_of_true (fun _ => hearly _) fun hr => absurd hr.2.1 hclean
    rw [if_neg (by grind)]
    by_cases hpage : overPage env es.logBlockSize=true
    · rw [if_pos hpage]
      exact iff_of_true (fun _ => hearly _) fun hr => absurd hpage (by simp [hr.2.2.1])
    rw [if_neg hpage]
    cases hdiv : (geometry env es).divides with
    | true => exact iff_of_true (fun hn => absurd rfl hn) fun hr => absurd hr.2.2.2 (by simp [hdiv])
    | false =>
      rw [if_neg (by simp)]
      dsimp only
      have hreads : ReadsDescriptors env es .read := ⟨hcompat,hclean,Bool.eq_false_of_not_eq_true hpage,hdiv⟩
      rw [← givenBack_iff]
      cases hr : (computeUses env es).2 with
      | none => simp
      | some e => simp [hreads]

/-- A first inode of 10 leaves the descriptor buffer locked; one that cannot be read stays busy. -/
theorem mount_leaks :
    let x := mountUses smallMount { smallDisk with firstIno := 10 } .read
    let y := mountUses { smallMount with readable := fun _ => false } smallDisk .read
    (x.2=some .einval ∧ x.1.count (get (lock 0))=1 ∧ x.1.count (put (lock 0))=0 ∧
      x.1.count (get array)=1 ∧ x.1.count (put array)=0) ∧
    y.2=some .eio ∧ y.1.count (get (desc 0))=1 ∧ y.1.count (put (desc 0))=0 := by
  decide +kernel

/-- `s_es`, the geometry, what `s_group_desc` leads to (`none` if freed), and the slot each inode
was last decoded from. `lost` counts locked buffers nothing refers to. -/
structure InCore where
  es : Superblock
  fs : Fs
  desc : Option (ℕ → ℕ → Descriptor)
  lost : ℕ
  slot : ℕ → Option Slot

/-- `disk` and `es` are what is on the disk now, `active` the inodes that are in use. -/
structure Reload where
  rdonly : Bool
  superRead : Bool
  disk : Env
  es : Superblock
  active : List ℕ
  inodeRead : ℕ → Bool

/-- Whether it goes on, what it leaves, and its error; `none` is a division by zero. -/
def reload (a : Reload) (x : InCore) : Option (Bool × InCore × Option Stop) :=
  if a.rdonly then some (false,x,some .einval)
  else if !a.superRead || !checkSbCompat a.es false then some (true,x,some .eio)
  else
    let fs := geometry a.disk a.es
    let y := { x with es := a.es,fs := fs,desc := some a.disk.desc,lost := x.lost+x.fs.dbpg }
    match computeSbData a.disk a.es with
    | .error .divide => none
    | .error .einval => some (true,y,some .einval)
    | .error e => some (true,{ y with fs := { fs with isize := x.fs.isize },desc := none },some e)
    | .ok fs =>
      let read := a.active.takeWhile a.inodeRead
      let slot (i : ℕ) := if i∈read then some (fs.reloadSlot i) else x.slot i
      some (true,{ y with fs := fs,slot := slot },if read=a.active then none else some .eio)

/-- What a reload is to do. -/
structure Reloads (a : Reload) (x : InCore) : Prop where
  returns : reload a x≠none
  readOnly : ∀ y e,reload a x=some (true,y,e) → a.rdonly=true
  failed : ∀ b y e,reload a x=some (b,y,some e) → y=x
  done : ∀ b y,reload a x=some (b,y,none) → y.es=a.es ∧ computeSbData a.disk a.es=.ok y.fs ∧
    y.desc=some a.disk.desc ∧ y.lost=x.lost ∧ ∀ i∈a.active,y.slot i=some (y.fs.vgetSlot i)

theorem reload_goes_on {a : Reload} {x y : InCore} {b : Bool} {e : Option Stop}
    (hr : a.rdonly=false) (h : reload a x=some (b,y,e)) : b=true := by
  rw [reload,hr,if_neg Bool.false_ne_true] at h
  dsimp only at h
  split at h
  · cases h
    rfl
  · split at h
    · cases h
    all_goals
      cases h
      rfl

/-- Only the call that is refused, the one for a read-only filesystem, does nothing wrong. -/
theorem reload_iff (a : Reload) (x : InCore) : Reloads a x ↔ a.rdonly=true := by
  constructor
  · intro h
    by_contra hr
    obtain ⟨⟨b,y,e⟩,hy⟩ := Option.ne_none_iff_exists'.mp h.returns
    obtain rfl := reload_goes_on (Bool.eq_false_iff.mpr hr) hy
    exact hr (h.readOnly y e hy)
  · intro hr
    have hres : reload a x=some (false,x,some .einval) := if_pos hr
    refine ⟨by simp [hres],?_,?_,?_⟩
    · exact fun y e hy => hr
    · intro b y e hy
      rw [hres] at hy
      cases hy
      rfl
    · intro b y hy
      rw [hres] at hy
      cases hy

/-- The call that goes on is atomic and complete only if it fails at the superblock: after that the
old descriptor buffers stay locked. -/
theorem reload_complete_iff {a : Reload} {x : InCore} (hr : a.rdonly=false) (hx : x.fs.dbpg≠0) :
    (∃ b y e,reload a x=some (b,y,e) ∧ (e≠none → y=x) ∧ y.lost=x.lost) ↔
      (!a.superRead || !checkSbCompat a.es false)=true := by
  by_cases hs : (!a.superRead || !checkSbCompat a.es false)=true
  · refine iff_of_true ⟨true,x,some .eio,?_,fun _ => rfl,rfl⟩ hs
    rw [reload,hr,if_neg Bool.false_ne_true,if_pos hs]
  refine iff_of_false ?_ hs
  rintro ⟨b,y,e,h,-,hlost⟩
  rw [reload,hr,if_neg Bool.false_ne_true,if_neg hs] at h
  dsimp only at h
  split at h
  · cases h
  all_goals
    cases h
    exact hx (Nat.add_eq_left.mp hlost)

def smallCore : InCore where
  es := smallDisk
  fs := geometry smallMount smallDisk
  desc := some smallMount.desc
  lost := 0
  slot _ := none

/-- If a descriptor block cannot be read, `s_group_desc` is left to freed memory; if all is well,
the old buffer stays locked. -/
theorem reload_breaks :
    let a : Reload := ⟨false,true,smallMount,{ smallDisk with state := 0 },[],fun _ => true⟩
    (∃ y,reload { a with disk := { smallMount with readable := fun _ => false } } smallCore=
      some (true,y,some .eio) ∧ y.desc.isNone ∧ y.es≠smallCore.es) ∧
    ∃ y,reload a smallCore=some (true,y,none) ∧ y.lost=1 :=
  ⟨⟨_,rfl,rfl,by decide⟩,_,rfl,by decide +kernel⟩

end Ext2fsX.Mount
