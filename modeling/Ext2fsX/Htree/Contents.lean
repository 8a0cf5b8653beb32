import Ext2fsX.Htree.Grow
import Mathlib.Data.List.Nodup

namespace Ext2fsX.Htree

open Framework Directory Record

variable (cfg : Config)

def blockEntries (m : Bytes) : List (List UInt8 × ℕ) := (leafDir cfg m).entries

def content (leaf : ℕ → Bytes) (xs : List (ℕ × ℕ)) : List (List UInt8 × ℕ) :=
  xs.flatMap (fun x => blockEntries cfg (leaf x.2))

/-- The live entries of the directory, found by going over all its leaves. -/
def liveEntries (t : IndexedDir) : List (List UInt8 × ℕ) :=
  content cfg t.leaf t.leaves

def Hashes (h : Hashing) (leaf : ℕ → Bytes) (b v : ℕ) : Prop :=
  ∃ e∈blockEntries cfg (leaf b),h.hash e.1=v

/-- An index over leaves whose names all need records of the length `len`. -/
structure Sound (h : Hashing) (len : ℕ) (t : IndexedDir) : Prop where
  shape : Shape cfg t
  leaf : ∀ y∈t.leaves,∃ rs,Leaf cfg (t.leaf y.2) rs ∧ Uniform len rs
  ranged : Ranged (Hashes cfg h t.leaf) t.leaves

def Located (m : Bytes) (name : List UInt8) (de : ℕ) : Prop :=
  ∃ rs pre r post,Leaf cfg m rs ∧ FirstHit name rs pre r post ∧ de=total recLen pre

section Blocks

variable {cfg : Config} {m : Bytes} {rs : List Record} {name : List UInt8}

theorem Leaf.blockEntries (hl : Leaf cfg m rs) : blockEntries cfg m=entriesOf rs := by
  unfold Htree.blockEntries Dir.entries
  rw [(leaf_iff_layout.mp hl).records]

theorem hit_iff {r : Record} : r.hit name=true ↔ r.live=true ∧ r.name=name := by
  unfold Record.hit
  rw [Bool.and_eq_true,decide_eq_true_eq]

theorem not_hit_iff : (∀ r∈rs,r.hit name=false) ↔ name∉(entriesOf rs).map Prod.fst := by
  constructor
  · intro hno hm
    obtain ⟨e,he,rfl⟩ := List.mem_map.mp hm
    obtain ⟨r,hr,hl,rfl⟩ := mem_entriesOf.mp he
    have := hno r hr
    rw [hit_iff.mpr ⟨hl,rfl⟩] at this
    cases this
  · intro hno r hr
    apply Bool.eq_false_iff.mpr
    intro hh
    obtain ⟨hl,rfl⟩ := hit_iff.mp hh
    exact hno (List.mem_map.mpr ⟨_,mem_entriesOf.mpr ⟨r,hr,hl,rfl⟩,rfl⟩)

theorem Leaf.located (hl : Leaf cfg m rs) (name : List UInt8) :
    (∃ de,findInLeaf cfg m name cfg.blocksize 0=.hit de ∧ Located cfg m name de) ∨
    (name∉(Htree.blockEntries cfg m).map Prod.fst ∧
      findInLeaf cfg m name cfg.blocksize 0=.miss) := by
  rcases hl.find name with ⟨pre,r,post,hf,he⟩ | ⟨hno,he⟩
  · exact .inl ⟨_,he,rs,pre,r,post,hl,hf,rfl⟩
  · rw [hl.blockEntries]
    exact .inr ⟨not_hit_iff.mp hno,he⟩

theorem Located.entry {de : ℕ} (h : Located cfg m name de) :
    (readRecord m de).name=name ∧ (name,(readRecord m de).inode)∈blockEntries cfg m := by
  obtain ⟨rs,pre,r,post,hl,hf,rfl⟩ := h
  obtain ⟨rfl,hit,-⟩ := hf
  obtain ⟨hlive,hname⟩ := hit_iff.mp hit
  have hr : readRecord m (total recLen pre)=r := (leaf_iff_layout.mp hl).record_ok.1
  rw [hr,hl.blockEntries,← hname]
  exact ⟨rfl,mem_entriesOf.mpr ⟨r,by simp,hlive,rfl⟩⟩

end Blocks

section Finding

variable {cfg : Config} {t : IndexedDir} {name : List UInt8}

/-- The leaf of the frames and those behind it whose keys continue the hash. -/
theorem findLoop_spec (name : List UInt8) {hash : ℕ} (fuel : ℕ) {f : Frames}
    {pre post : List (ℕ × ℕ)} {x : ℕ × ℕ} (hs : Slot t f f.root pre x post)
    (hne : ∀ y∈t.nodes,t.node y.2≠[]) (hleaf : ∀ y∈t.leaves,∃ rs,Leaf cfg (t.leaf y.2) rs)
    (heven : hash%2=0) (hfuel : post.length<fuel) :
    let run := post.takeWhile (fun z => decide (z.1/2*2=hash))
    (∃ y∈x::run,∃ de,findLoop cfg t name hash fuel f=.at y.2 de ∧
      Located cfg (t.leaf y.2) name de) ∨
    ((∀ y∈x::run,name∉(blockEntries cfg (t.leaf y.2)).map Prod.fst) ∧
      findLoop cfg t name hash fuel f=.enoent) := by
  induction fuel generalizing f pre x post with
  | zero => cases hfuel
  | succ fuel ih =>
    have hx : x∈t.leaves := by
      rw [hs.leaves_eq]
      simp
    obtain ⟨rs,hl⟩ := hleaf x hx
    unfold findLoop
    rw [hs.leafBlock]
    rcases hl.located name with ⟨de,he,hloc⟩ | ⟨hno,he⟩
    · rw [he]
      exact .inl ⟨x,List.mem_cons_self,de,rfl,hloc⟩
    rw [he]
    rcases hs.nextBlock hne heven with ⟨hrun,hn⟩ | ⟨y,ys,f',rfl,hy,hn,hs'⟩
    · rw [hn,hrun]
      exact .inr ⟨List.forall_mem_singleton.mpr hno,rfl⟩
    rw [hn,List.takeWhile_cons_of_pos (by simpa using hy)]
    have hlt : ys.length<fuel := by
      rw [List.length_cons] at hfuel
      omega
    rcases ih hs' hlt with ⟨z,hz,de,h1,h2⟩ | ⟨h1,h2⟩
    · exact .inl ⟨z,List.mem_cons_of_mem x hz,de,h1,h2⟩
    · exact .inr ⟨List.forall_mem_cons.mpr ⟨hno,h1⟩,h2⟩

variable {seed : HashBuf} {len : ℕ}

theorem Shape.leaves_length (hs : Shape cfg t) : t.leaves.length<t.blocks := by
  have hlen := hs.blocks.length_eq
  have hfirst := hs.first
  rw [List.length_append,List.length_map,List.length_map,List.length_range'] at hlen
  omega

structure Searchable (cfg : Config) (h : Hashing) (t : IndexedDir) : Prop where
  shape : Shape cfg t
  known : (HashVersion.known t.version).isSome
  leaf : ∀ y∈t.leaves,∃ rs,Leaf cfg (t.leaf y.2) rs
  ranged : Ranged (Hashes cfg h t.leaf) t.leaves

theorem Searchable.find (hs : Searchable cfg (hashing seed t.version) t) (name : List UInt8) :
    (∃ y∈t.leaves,∃ de,dxFindEntry cfg seed t name=.at y.2 de ∧ Located cfg (t.leaf y.2) name de) ∨
    (name∉(liveEntries cfg t).map Prod.fst ∧ dxFindEntry cfg seed t name=.enoent) := by
  have heven := (hashing seed t.version).even name
  obtain ⟨f,pre,x,post,hp,hslot,hprobed⟩ := hs.shape.probe hs.ranged.keys_le hs.known
    ((hashing seed t.version).hash name)
  have hleaves := hslot.leaves_eq
  have hlen := hs.shape.leaves_length
  rw [hleaves,List.length_append,List.length_cons] at hlen
  unfold dxFindEntry
  dsimp only
  rw [hp]
  rcases findLoop_spec name t.blocks hslot hs.shape.nodes hs.leaf heven (by omega) with
    ⟨y,hy,de,h1,h2⟩ | ⟨hno,h1⟩
  · refine .inl ⟨y,?_,de,h1,h2⟩
    rw [hleaves]
    rcases List.mem_cons.mp hy with rfl | hy
    · simp
    · exact List.mem_append_right _ (List.mem_cons_of_mem _ (List.takeWhile_subset _ hy))
  · refine .inr ⟨?_,h1⟩
    intro hm
    obtain ⟨e,he,rfl⟩ := List.mem_map.mp hm
    obtain ⟨y,hy,hye⟩ := List.mem_flatMap.mp he
    have hr := hs.ranged
    rw [hleaves] at hr hy
    have hrun := hr.run hprobed heven hy ⟨e,hye,rfl⟩
    exact hno y (List.mem_cons.mpr hrun) (List.mem_map_of_mem hye)

theorem Sound.searchable (hs : Sound cfg (hashing seed t.version) len t)
    (hknown : (HashVersion.known t.version).isSome) :
    Searchable cfg (hashing seed t.version) t where
  shape := hs.shape
  known := hknown
  leaf := by
    intro y hy
    obtain ⟨rs,hl,-⟩ := hs.leaf y hy
    exact ⟨rs,hl⟩
  ranged := hs.ranged

/-- `ext3_dx_find_entry` gives a record with this name and inode. -/
def Finds (cfg : Config) (seed : HashBuf) (t : IndexedDir) (name : List UInt8) (ino : ℕ) : Prop :=
  ∃ b de,dxFindEntry cfg seed t name=.at b de ∧ (readRecord (t.leaf b) de).name=name ∧
    (readRecord (t.leaf b) de).inode=ino

theorem Located.mem_liveEntries {y : ℕ × ℕ} {de : ℕ} (hy : y∈t.leaves)
    (h : Located cfg (t.leaf y.2) name de) :
    (name,(readRecord (t.leaf y.2) de).inode)∈liveEntries cfg t :=
  List.mem_flatMap.mpr ⟨y,hy,h.entry.2⟩

theorem eq_of_nodup {es : List (List UInt8 × ℕ)} (hnd : (es.map Prod.fst).Nodup) {n : List UInt8}
    {i j : ℕ} (hi : (n,i)∈es) (hj : (n,j)∈es) : i=j :=
  congrArg Prod.snd (List.inj_on_of_nodup_map hnd hi hj rfl)

theorem Sound.finds_iff (hs : Sound cfg (hashing seed t.version) len t)
    (hknown : (HashVersion.known t.version).isSome) (hnd : ((liveEntries cfg t).map Prod.fst).Nodup)
    (name : List UInt8) (ino : ℕ) :
    Finds cfg seed t name ino ↔ (name,ino)∈liveEntries cfg t := by
  rcases (hs.searchable hknown).find name with ⟨y,hy,de,h1,h2⟩ | ⟨hno,h1⟩
  · have hm := h2.mem_liveEntries hy
    constructor
    · rintro ⟨b,de',he,-,rfl⟩
      rw [h1] at he
      cases he
      exact hm
    · intro hi
      exact ⟨y.2,de,h1,h2.entry.1,eq_of_nodup hnd hm hi⟩
  · constructor
    · rintro ⟨b,de,he,-⟩
      rw [h1] at he
      cases he
    · intro hi
      exact absurd (List.mem_map_of_mem hi) hno

end Finding

section Changing

variable {cfg : Config} {t : IndexedDir} {pre post : List (ℕ × ℕ)} {x : ℕ × ℕ} {leaf : ℕ → Bytes}

theorem content_append (leaf : ℕ → Bytes) (xs ys : List (ℕ × ℕ)) :
    content cfg leaf (xs++ys)=content cfg leaf xs++content cfg leaf ys := List.flatMap_append

theorem content_cons (leaf : ℕ → Bytes) (y : ℕ × ℕ) (ys : List (ℕ × ℕ)) :
    content cfg leaf (y::ys)=blockEntries cfg (leaf y.2)++content cfg leaf ys := List.flatMap_cons

theorem content_congr {leaf' : ℕ → Bytes} {xs : List (ℕ × ℕ)} (hx : ∀ y∈xs,leaf' y.2=leaf y.2) : content cfg leaf' xs=content cfg leaf xs :=
  List.flatMap_congr (fun y hy => by rw [hx y hy])

theorem Shape.leaf_apart (hs : Shape cfg t) (hl : t.leaves=pre++x::post) :
    (∀ y∈pre++post,y.2≠x.2) ∧ ∀ y∈t.leaves,y.2≠t.blocks := by
  constructor
  · have hnd := (List.nodup_append.mp hs.fresh.1).2.1
    rw [hl,List.map_append,List.map_cons,List.perm_middle.nodup_iff,List.nodup_cons,
      ← List.map_append] at hnd
    intro y hy he
    exact hnd.1 (List.mem_map.mpr ⟨y,hy,he⟩)
  · intro y hy
    have := hs.fresh.2 y.2 (List.mem_append_right _ (List.mem_map_of_mem hy))
    omega

theorem liveEntries_perm (cfg : Config) (hl : t.leaves=pre++x::post) :
    (liveEntries cfg t).Perm (blockEntries cfg (t.leaf x.2)++content cfg t.leaf (pre++post)) := by
  unfold liveEntries
  rw [hl,content_append,content_cons,content_append,← List.append_assoc,← List.append_assoc]
  exact (List.perm_append_comm).append_right _

theorem Sound.setLeaf {h : Hashing} {len : ℕ} (hs : Sound cfg h len t) (hl : t.leaves=pre++x::post)
    {m : Bytes} {rs : List Record} (hm : Leaf cfg m rs) (hu : Uniform len rs)
    (hrange : ∀ e∈entriesOf rs,x.1/2*2 ≤ h.hash e.1 ∧ ∀ y∈post.head?,h.hash e.1<y.1) :
    let t' := { t with leaf := Function.update t.leaf x.2 m }
    Sound cfg h len t' ∧
      (liveEntries cfg t').Perm (entriesOf rs++content cfg t.leaf (pre++post)) := by
  generalize ht : ({ t with leaf := Function.update t.leaf x.2 m } : IndexedDir)=t'
  have hleaves : t'.leaves=pre++x::post := by rw [← ht]; exact hl
  have hx : t'.leaf x.2=m := by
    rw [← ht]
    exact Function.update_self ..
  have hsame : ∀ y∈pre++post,t'.leaf y.2=t.leaf y.2 := by
    intro y hy
    rw [← ht]
    exact Function.update_of_ne ((hs.shape.leaf_apart hl).1 y hy) _ _
  have hold : ∀ y∈pre++post,y∈t.leaves := by
    intro y hy
    rw [hl]
    rcases List.mem_append.mp hy with hy | hy
    · exact List.mem_append_left _ hy
    · exact List.mem_append_right _ (List.mem_cons_of_mem _ hy)
  refine ⟨⟨?_,?_,?_⟩,?_⟩
  · rw [← ht]
    exact ⟨hs.shape.levels,hs.shape.root,hs.shape.nodes,hs.shape.rootRoom,hs.shape.nodeRoom,
      hs.shape.first,hs.shape.blocks⟩
  · intro y hy
    rw [hleaves] at hy
    rcases List.mem_cons.mp (List.perm_middle.mem_iff.mp hy) with rfl | hy
    · rw [hx]
      exact ⟨rs,hm,hu⟩
    · rw [hsame y hy]
      exact hs.leaf y (hold y hy)
  · rw [hleaves]
    have hr := hs.ranged
    rw [hl] at hr
    apply hr.update
    · rintro y hy v ⟨e,he,hv⟩
      rw [hsame y hy] at he
      exact ⟨e,he,hv⟩
    · rintro v ⟨e,he,rfl⟩
      rw [hx,hm.blockEntries] at he
      exact hrange e he
  · have hp := liveEntries_perm cfg hleaves
    rwa [hx,hm.blockEntries,content_congr hsame] at hp

end Changing

end Ext2fsX.Htree
