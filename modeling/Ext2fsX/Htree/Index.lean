import Ext2fsX.Framework.Bisect
import Ext2fsX.Htree.SplitAdd

namespace Ext2fsX.Htree

open Framework Directory
open Function (update)

/-- The hash of the first entry of an index block is never read: its place holds the count and the
limit. -/
structure DxEntry where
  hash : ℕ
  block : ℕ
  deriving Inhabited

def DxEntry.getBlock (e : DxEntry) : ℕ := e.block%16777216

variable (cfg : Config)

def rootLimit : ℕ := (cfg.blocksize-12-12-8)/8

def nodeLimit : ℕ := (cfg.blocksize-8)/8

/-- What `struct dx_root` says, the entries of the nodes, the bytes of the leaves, and the size in
blocks. -/
structure IndexedDir where
  version : ℕ
  levels : ℕ
  root : List DxEntry
  node : ℕ → List DxEntry
  leaf : ℕ → Bytes
  blocks : ℕ

/-- `frames[0].at`, and when there is a second frame its block and its `at`. -/
structure Frames where
  root : ℕ
  node : Option ℕ
  inner : ℕ

/-- The hashes that `ext3fs_dirhash` gives under a version: 0 for one that it does not know. -/
def hashing (seed : HashBuf) (version : ℕ) : Hashing :=
  match HashVersion.known version with
  | some v => dirhash v seed
  | none => ⟨fun _ => 0,fun _ => 0,fun _ => rfl,fun _ => Nat.succ_pos _⟩

/-- `at` of a frame: the binary search of `dx_probe` over the entries of an index block. -/
def search (es : List DxEntry) (hash : ℕ) : ℕ :=
  bisect (fun m => (es.getD m default).hash) hash es.length 1 (es.length-1)-1

variable (t : IndexedDir)

/-- `dx_probe`; it fails with `ERR_BAD_DX_DIR`. -/
def probe (hash : ℕ) : Option Frames :=
  if (HashVersion.known t.version).isNone then none
  else if 1 < t.levels then none
  else
    let i := search t.root hash
    if t.levels=0 then some ⟨i,none,0⟩
    else
      let b := (t.root.getD i default).getBlock
      some ⟨i,some b,search (t.node b) hash⟩

variable (f : Frames)

def IndexedDir.entries : List DxEntry :=
  match f.node with
  | none => t.root
  | some b => t.node b

def Frames.at : ℕ :=
  match f.node with
  | none => f.root
  | some _ => f.inner

def IndexedDir.leafBlock : ℕ :=
  ((t.entries f).getD f.at default).getBlock

/-- The frames of the leaf behind, and the key that it stands under. -/
def advance : Option (Frames × ℕ) :=
  match f.node with
  | none =>
    if f.root+1<t.root.length then
      some (⟨f.root+1,none,0⟩,(t.root.getD (f.root+1) default).hash)
    else none
  | some b =>
    if f.inner+1<(t.node b).length then
      some (⟨f.root,some b,f.inner+1⟩,((t.node b).getD (f.inner+1) default).hash)
    else if f.root+1<t.root.length then
      let e := t.root.getD (f.root+1) default
      some (⟨f.root+1,some e.getBlock,0⟩,e.hash)
    else none

/-- With an even hash it goes on only if the next leaf continues that hash. -/
def nextBlock (hash : ℕ) (f : Frames) : Option Frames :=
  match advance t f with
  | some (f',bhash) => if hash%2=0 ∧ bhash/2*2≠hash then none else some f'
  | none => none

inductive DxFound where
  | at (block de : ℕ)
  | eio
  | enoent
  | badDxDir
  deriving DecidableEq

def findLoop (name : List UInt8) (hash : ℕ) :
    ℕ → Frames → DxFound
  | 0,_ => .enoent
  | fuel+1,f =>
    match findInLeaf cfg (t.leaf (t.leafBlock f)) name cfg.blocksize 0 with
    | .hit de => .at (t.leafBlock f) de
    | .bad => .eio
    | .miss =>
      match nextBlock t hash f with
      | some f' => findLoop name hash fuel f'
      | none => .enoent

def dxFindEntry (seed : HashBuf) (t : IndexedDir) (name : List UInt8) : DxFound :=
  let hash := (hashing seed t.version).hash name
  match probe t hash with
  | some f => findLoop cfg t name hash t.blocks f
  | none => .badDxDir

def insertBlock (es : List DxEntry) (at_ : ℕ) (e : DxEntry) : List DxEntry :=
  es.take (at_+1)++e::es.drop (at_+1)

def IndexedDir.setEntries (es : List DxEntry) : IndexedDir :=
  match f.node with
  | none => { t with root := es }
  | some b => { t with node := update t.node b es }

/-- A full root gets a level below it, a node is split. It fails when the root has no place for
another node. -/
def splitIndex : Option (IndexedDir × Frames) :=
  let newblock := t.blocks
  match f.node with
  | none =>
    some ({ t with
      levels := 1
      root := [{ t.root.getD 0 default with block := newblock }]
      node := update t.node newblock t.root
      blocks := newblock+1 },⟨f.root,some newblock,f.root⟩)
  | some b =>
    if t.root.length=rootLimit cfg then none
    else
      let es := t.node b
      let icount1 := es.length/2
      let hash2 := (es.getD icount1 default).hash
      some ({ t with
        root := insertBlock t.root f.root ⟨hash2,newblock⟩
        node := update (update t.node newblock (es.drop icount1)) b
          (es.take icount1)
        blocks := newblock+1 },
        if icount1 ≤ f.inner then ⟨f.root,some newblock,f.inner-icount1⟩ else f)

/-- `do_split` and `add_dirent_to_buf` on a leaf; `fresh` is what the buffer of the new block held.
-/
def splitLeaf (h : Hashing) (t : IndexedDir) (f : Frames) (d : Dentry)
    (fresh : Bytes) : IndexedDir :=
  let newblock := t.blocks
  let b := t.leafBlock f
  let s := splitAdd cfg h (t.leaf b) fresh d
  { t.setEntries f (insertBlock (t.entries f) f.at ⟨s.key,newblock⟩) with
    leaf := update (update t.leaf b s.lower) newblock s.upper
    blocks := newblock+1 }

/-- The errors of `ext3_dx_add_entry`; none of them changes the directory. -/
inductive DxError where
  | badDxDir
  | eio
  | eexist
  | enospc

def dxAddEntry (seed : HashBuf) (t : IndexedDir) (d : Dentry) (fresh : Bytes) :
    Except DxError IndexedDir :=
  let h := hashing seed t.version
  match probe t (h.hash d.name.bytes) with
  | none => .error .badDxDir
  | some f =>
    let b := t.leafBlock f
    let m := t.leaf b
    match findRoom cfg m d cfg.blocksize 0 with
    | .eio => .error .eio
    | .eexist => .error .eexist
    | .at de => .ok { t with leaf := update t.leaf b (writeAll m (addWrites m de d)) }
    | .enospc =>
      let limit := if f.node.isSome then nodeLimit cfg else rootLimit cfg
      if (t.entries f).length=limit then
        match splitIndex cfg t f with
        | some (t,f) => .ok (splitLeaf cfg h t f d fresh)
        | none => .error .enospc
      else .ok (splitLeaf cfg h t f d fresh)

/-- `ext3_delete_entry` on the record that `ext3_dx_find_entry` gives for a name. -/
def dxDeleteEntry (seed : HashBuf) (t : IndexedDir) (name : List UInt8) :
    IndexedDir :=
  match dxFindEntry cfg seed t name with
  | .at b de =>
    match deleteInLeaf cfg (t.leaf b) de cfg.blocksize 0 none with
    | some m => { t with leaf := update t.leaf b m }
    | none => t
  | _ => t

/-- The last of the records that `make_indexed_dir` has copied, from the one at `de` on. -/
def lastRecord (m : Bytes) (top : ℕ) : ℕ → ℕ → ℕ
  | 0,de => de
  | fuel+1,de =>
    let de2 := de+(readRecord m de).recLen
    if de2<top then lastRecord m top fuel de2 else de

/-- The first leaf: the records behind `..`, the last of them stretched. -/
def moveOut (m fresh : Bytes) : Bytes :=
  let de := 12+(readRecord m 12).recLen
  let len := cfg.blocksize-de
  let data1 := fresh.store 0 (m.slice de len)
  let last := lastRecord data1 len cfg.blocksize 0
  data1.store (last+4) (Bytes.enc16 (cfg.blocksize-last))

def makeIndexedDir (seed : HashBuf) (version : ℕ) (m : Bytes) (d : Dentry)
    (fresh1 fresh2 : Bytes) : IndexedDir :=
  let t : IndexedDir :=
    { version := version
      levels := 0
      root := [⟨0,1⟩]
      node := fun _ => []
      leaf := fun b => if b=1 then moveOut cfg m fresh1 else m
      blocks := 2 }
  splitLeaf cfg (hashing seed version) t ⟨0,none,0⟩ d fresh2

end Ext2fsX.Htree
