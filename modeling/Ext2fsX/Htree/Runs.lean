import Ext2fsX.Framework.Machine
import Ext2fsX.Htree.Convert

namespace Ext2fsX.Htree

open Framework Directory

deriving instance Decidable for Dentry.Valid

/-- An indexed directory, with the entries that were added to it and not deleted. -/
structure Run where
  dir : IndexedDir
  live : List (List UInt8 × ℕ)

/-- The calls that change a directory; `fresh` is what the buffer of a new leaf holds. -/
inductive Change where
  | add (d : Dentry) (fresh : Bytes)
  | delete (name : List UInt8)

/-- One call. Only names that are not there are added, all with records of the length `len`. -/
def applyChange (cfg : Config) (seed : HashBuf) (len : ℕ) : Change → Run → Option Run
  | .add d fresh,s =>
    if d.Valid cfg ∧ d.reclen=len ∧ d.name.bytes∉s.live.map Prod.fst then
      match dxAddEntry cfg seed s.dir d fresh with
      | .ok t => some ⟨t,(d.name.bytes,d.ino)::s.live⟩
      | .error _ => some s
    else none
  | .delete name,s =>
    some ⟨dxDeleteEntry cfg seed s.dir name,s.live.filter (fun e => decide (e.1≠name))⟩

/-- What `make_indexed_dir` makes of the block `m`, and every sequence of calls after that. -/
def machine (cfg : Config) (seed : HashBuf) (version : ℕ) (m : Bytes) (d : Dentry) :
    Machine Run Change where
  init := fun s => ∃ fresh1 fresh2,s=⟨makeIndexedDir cfg seed version m d fresh1 fresh2,
    (d.name.bytes,d.ino)::oldEntries cfg m⟩
  next := applyChange cfg seed d.reclen

structure Correct (cfg : Config) (seed : HashBuf) (s : Run) : Prop where
  find : ∀ name ino,Finds cfg seed s.dir name ino ↔ (name,ino)∈s.live
  scan : (liveEntries cfg s.dir).Perm s.live
  root : (keyed 0 s.dir.root).Pairwise (fun a b => a.1≤b.1)
  nodes : ∀ y∈s.dir.nodes,(keyed y.1 (s.dir.node y.2)).Pairwise (fun a b => a.1≤b.1)
  ranged : Ranged (Hashes cfg (hashing seed s.dir.version) s.dir.leaf) s.dir.leaves

variable {cfg : Config} {seed : HashBuf} {version len : ℕ} {m : Bytes} {d : Dentry}

structure Kept (cfg : Config) (seed : HashBuf) (version len : ℕ) (s : Run) : Prop where
  sound : Sound cfg (hashing seed version) len s.dir
  version : s.dir.version=version
  live : (liveEntries cfg s.dir).Perm s.live
  names : (s.live.map Prod.fst).Nodup

theorem Sound.keys {h : Hashing} {t : IndexedDir} (hs : Sound cfg h len t) :
    (keyed 0 t.root).Pairwise (fun a b => a.1≤b.1) ∧
      ∀ y∈t.nodes,(keyed y.1 (t.node y.2)).Pairwise (fun a b => a.1≤b.1) := by
  have hkeys := hs.ranged.keys_le
  have hne := hs.shape.nodes
  unfold IndexedDir.leaves at hkeys
  unfold IndexedDir.nodes at hne ⊢
  by_cases h0 : t.levels=0
  · rw [if_pos h0] at hkeys ⊢
    exact ⟨hkeys,nofun⟩
  · rw [if_neg h0] at hkeys hne ⊢
    exact (under_pairwise hne hkeys).symm

theorem Kept.correct {s : Run} (hk : Kept cfg seed version len s)
    (hknown : (HashVersion.known version).isSome) : Correct cfg seed s := by
  obtain ⟨hs,rfl,hlive,hnames⟩ := hk
  have hnd : ((liveEntries cfg s.dir).map Prod.fst).Nodup :=
    (hlive.map Prod.fst).nodup_iff.mpr hnames
  refine ⟨?_,hlive,hs.keys.1,hs.keys.2,hs.ranged⟩
  intro name ino
  rw [hs.finds_iff hknown hnd,hlive.mem_iff]

theorem Kept.step {s s' : Run} {c : Change} (hk : Kept cfg seed version len s)
    (hknown : (HashVersion.known version).isSome) (hn : applyChange cfg seed len c s=some s') :
    Kept cfg seed version len s' := by
  obtain ⟨hs,rfl,hlive,hnames⟩ := hk
  have hnd : ((liveEntries cfg s.dir).map Prod.fst).Nodup :=
    (hlive.map Prod.fst).nodup_iff.mpr hnames
  cases c with
  | add d fresh =>
    by_cases hok : d.Valid cfg ∧ d.reclen=len ∧ d.name.bytes∉s.live.map Prod.fst
    · simp only [applyChange,if_pos hok] at hn
      obtain ⟨hvalid,rfl,habs⟩ := hok
      have habs' : d.name.bytes∉(liveEntries cfg s.dir).map Prod.fst := by
        rwa [(hlive.map Prod.fst).mem_iff]
      rcases hs.add hknown hvalid habs' fresh with ⟨t,he,h1,h2,h3⟩ | ⟨he,-⟩
      · rw [he] at hn
        cases hn
        refine ⟨h1,h2,h3.trans (hlive.cons _),?_⟩
        rw [List.map_cons,List.nodup_cons]
        exact ⟨habs,hnames⟩
      · rw [he] at hn
        cases hn
        exact ⟨hs,rfl,hlive,hnames⟩
    · simp only [applyChange,if_neg hok] at hn
      cases hn
  | delete name =>
    cases hn
    obtain ⟨h1,h2,h3⟩ := hs.delete hknown hnd name
    refine ⟨h1,h2,h3.symm.trans (hlive.filter _),?_⟩
    exact hnames.sublist (List.filter_sublist.map Prod.fst)

theorem Crowded.start (hc : Crowded cfg m d) (seed : HashBuf) (version : ℕ)
    (fresh1 fresh2 : Bytes) :
    Kept cfg seed version d.reclen ⟨Htree.makeIndexedDir cfg seed version m d fresh1 fresh2,
      (d.name.bytes,d.ino)::oldEntries cfg m⟩ := by
  obtain ⟨h1,h2,h3⟩ := hc.makeIndexedDir seed version fresh1 fresh2
  refine ⟨h1,h2,h3,?_⟩
  have hsub : (oldEntries cfg m).Sublist (leafDir cfg m).entries :=
    ((List.drop_sublist 2 _).filter _).map _
  rw [List.map_cons,List.nodup_cons]
  exact ⟨fun hm => hc.absent ((hsub.map Prod.fst).subset hm),
    hc.wellFormed.names.sublist (hsub.map Prod.fst)⟩

theorem find_unknown {t : IndexedDir} (hv : (HashVersion.known t.version).isSome=false)
    (name : List UInt8) : dxFindEntry cfg seed t name=.badDxDir := by
  have hnone : (HashVersion.known t.version).isNone=true := by
    cases h : HashVersion.known t.version with
    | none => rfl
    | some v => simp [h] at hv
  unfold dxFindEntry probe
  rw [hnone]
  rfl

/-- In every run from a directory of one block, with any collisions, the index finds exactly the
entries that were added and not deleted, and keys and hashes are in order, if and only if the index
code knows the hash version of the superblock. -/
theorem htree_correct_iff (cfg : Config) (seed : HashBuf) (version : ℕ) (m : Bytes) (d : Dentry)
    (hc : Crowded cfg m d) :
    (∀ s,(machine cfg seed version m d).Reach Machine.anyStep s → Correct cfg seed s) ↔
      (HashVersion.known version).isSome := by
  constructor
  · intro hall
    have hs := hall _ (.start ⟨m,m,rfl⟩)
    obtain ⟨-,hver,-⟩ := hc.makeIndexedDir seed version m m
    obtain ⟨b,de,hat,-⟩ := (hs.find d.name.bytes d.ino).mpr List.mem_cons_self
    cases hk : (HashVersion.known version).isSome with
    | true => rfl
    | false =>
      rw [find_unknown (by rw [hver]; exact hk)] at hat
      cases hat
  · intro hknown s hr
    have hkept : Kept cfg seed version d.reclen s := by
      apply hr.invariant
      · rintro s ⟨fresh1,fresh2,rfl⟩
        exact hc.start seed version fresh1 fresh2
      · intro s s' c hk _ hn
        exact hk.step hknown hn
    exact hkept.correct hknown

def crowdedRecords : List Record :=
  [⟨2,12,2,[46]⟩,⟨2,12,2,[46,46]⟩,⟨11,264,1,longName 97⟩,⟨12,264,1,longName 98⟩,
    ⟨13,472,1,longName 99⟩]

def crowdedBlock : Bytes := layRecords crowdedRecords

theorem crowdedRecords_leaf : Leaf smallConfig crowdedBlock crowdedRecords :=
  layRecords_leaf (by decide +kernel) (by decide +kernel) (by decide +kernel)

theorem crowdedBlock_crowded : Crowded smallConfig crowdedBlock dentryLong := by
  have hlay := leaf_iff_layout.mp crowdedRecords_leaf
  have hrec := hlay.records
  constructor
  · refine ⟨by rw [hrec]; exact hlay,?_⟩
    decide +kernel
  · exact ⟨_,_,_,hrec,rfl,rfl,rfl⟩
  · rw [hrec]
    decide +kernel
  · decide
  · unfold Dir.entries
    decide +kernel
  · rw [hrec]
    decide +kernel

theorem htree_correct_crowded :
    Correct smallConfig ⟨0,0,0,0⟩
      ⟨makeIndexedDir smallConfig ⟨0,0,0,0⟩ 2 crowdedBlock dentryLong crowdedBlock crowdedBlock,
        (dentryLong.name.bytes,dentryLong.ino)::oldEntries smallConfig crowdedBlock⟩ :=
  (htree_correct_iff smallConfig ⟨0,0,0,0⟩ 2 crowdedBlock dentryLong crowdedBlock_crowded).mpr rfl
    _ (.start ⟨crowdedBlock,crowdedBlock,rfl⟩)

/-- `make_indexed_dir` makes an index that `dx_probe` refuses: the new entry is not found. -/
theorem unknown_version_loses :
    let t := makeIndexedDir smallConfig ⟨0,0,0,0⟩ 3 crowdedBlock dentryLong crowdedBlock crowdedBlock
    Crowded smallConfig crowdedBlock dentryLong ∧
      (dentryLong.name.bytes,17)∈liveEntries smallConfig t ∧
      dxFindEntry smallConfig ⟨0,0,0,0⟩ t dentryLong.name.bytes=.badDxDir := by
  obtain ⟨-,hver,hlive⟩ := crowdedBlock_crowded.makeIndexedDir ⟨0,0,0,0⟩ 3 crowdedBlock crowdedBlock
  refine ⟨crowdedBlock_crowded,hlive.mem_iff.mpr List.mem_cons_self,?_⟩
  exact find_unknown (by rw [hver]; rfl) _

end Ext2fsX.Htree
