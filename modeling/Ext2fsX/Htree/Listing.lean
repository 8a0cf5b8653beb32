import Ext2fsX.Directory.Readdir
import Ext2fsX.Framework.Buckets
import Ext2fsX.Htree.Contents
import Mathlib.Data.Prod.Lex

namespace Ext2fsX.Htree

open Framework Directory

structure Fname where
  hash : ℕ
  minorHash : ℕ
  inode : ℕ
  fileType : UInt8
  name : List UInt8
  deriving DecidableEq

/-- The red-black tree is the list of its nodes as `rb_next` gives them, each with its chain of
names. -/
def Fname.key (f : Fname) : ℕ ×ₗ ℕ := toLex (f.hash,f.minorHash)

def storeDirent (hash minorHash : ℕ) (de : Record) (root : List (Bucket Fname)) :
    List (Bucket Fname) :=
  enter Fname.key ⟨hash,minorHash,de.inode,de.fileType,de.name⟩ root

structure Filling where
  root : List (Bucket Fname)
  count : ℕ

/-- The index is refused, a loop does not end, or memory is read that has been given back. -/
inductive DxStop where
  | badDxDir
  | hang
  | fault

variable (cfg : Config)

def dirblockToTree (h : Hashing) (startHash startMinorHash : ℕ) (m : Bytes) :
    ℕ → ℕ → Filling → Except DxStop Filling
  | 0,_,_ => .error .hang
  | fuel+1,de,s =>
    if de+dirRecLen 0 < cfg.blocksize then
      let r := readRecord m de
      let hash := h.hash r.name
      let minorHash := h.minorHash r.name
      let s :=
        if hash < startHash ∨ hash=startHash ∧ minorHash < startMinorHash then s
        else ⟨storeDirent hash minorHash r s.root,s.count+1⟩
      dirblockToTree h startHash startMinorHash m fuel (de+r.recLen) s
    else .ok s

def fillLoop (h : Hashing) (t : IndexedDir) (startHash startMinorHash : ℕ) :
    ℕ → Frames → Filling → Except DxStop (Filling × ℕ)
  | 0,_,_ => .error .hang
  | fuel+1,f,s =>
    match dirblockToTree cfg h startHash startMinorHash (t.leaf (t.leafBlock f))
      (cfg.blocksize+1) 0 s with
    | .error x => .error x
    | .ok s =>
      match advance t f with
      | none => .ok (s,4294967295)
      | some (f',hashval) =>
        if s.count≠0 ∧ hashval%2=0 then .ok (s,hashval)
        else fillLoop h t startHash startMinorHash fuel f' s

/-- An indexed directory with the two records of its root block. -/
structure DxDir where
  tree : IndexedDir
  dot : Record
  dotdot : Record

def DxDir.size (d : DxDir) : ℕ := d.tree.blocks*cfg.blocksize

def htreeFillTree (seed : HashBuf) (d : DxDir) (startHash startMinorHash : ℕ) :
    Except DxStop (Filling × ℕ) :=
  match probe d.tree startHash with
  | none => .error .badDxDir
  | some f =>
    let s : Filling :=
      if startHash=0 ∧ startMinorHash=0 then
        ⟨storeDirent 0 0 d.dotdot (storeDirent 0 0 d.dot []),2⟩
      else ⟨[],0⟩
    fillLoop cfg (hashing seed d.tree.version) d.tree startHash startMinorHash d.tree.blocks f s

/-- `curr` is `curr_node` with the nodes behind it, `extra` the chain at `extra_fname`, and `freed`
says that this chain has been given back. -/
structure DirInfo where
  root : List (Bucket Fname)
  curr : List (Bucket Fname)
  extra : List Fname
  freed : Bool
  lastPos : ℕ
  currHash : ℕ
  currMinorHash : ℕ
  nextHash : ℕ

def createDirInfo (pos : ℕ) : DirInfo := ⟨[],[],[],false,0,pos*2%4294967296,0,0⟩

/-- `f_pos`, which is `i_diroff`, `private_data`, and `IN_DX_UPDATE`. -/
structure Cursor where
  fpos : ℕ
  info : Option DirInfo
  dxUpdate : Bool

def htreeEof : ℕ := 2147483647

/-- With the room in the caller's buffer and what has been moved there. -/
structure Listing where
  info : DirInfo
  fpos : ℕ
  dxUpdate : Bool
  resid : ℕ
  out : List Dirent

/-- What `bsd_filldir` moves out. -/
def Fname.dirent (past : UInt8) (f : Fname) : Dirent :=
  ⟨f.inode,dirsiz f.name.length,fttodt past f.fileType,f.name⟩

/-- The loop of `call_filldir`; the flag is its error. -/
def callFilldir (past : UInt8) (currPos : ℕ) : List Fname → Listing → Listing × Bool
  | [],s => (s,false)
  | f::fs,s =>
    if s.resid<dirsiz f.name.length then
      ({ s with fpos := currPos, info := { s.info with extra := fs, freed := false } },true)
    else callFilldir past currPos fs
      { s with resid := s.resid-dirsiz f.name.length, out := s.out++[f.dirent past] }

section Calls

variable (cfg : Config) (seed : HashBuf) (past : UInt8) (d : DxDir)

def refill (s : Listing) : Except DxStop Listing :=
  match htreeFillTree cfg seed d s.info.currHash s.info.currMinorHash with
  | .error x => .error x
  | .ok (fl,nextHash) => .ok { s with
      dxUpdate := false
      info := { s.info with
        root := fl.root, curr := fl.root, nextHash := nextHash
        freed := s.info.freed || decide (s.info.extra≠[]) } }

/-- The loop of `ext3_dx_readdir`. No name stored leaves the tree empty. -/
def dxLoop : ℕ → Listing → Except DxStop Listing
  | 0,_ => .error .hang
  | fuel+1,s =>
    match if s.info.curr=[] ∨ s.dxUpdate=true then refill cfg seed d s else .ok s with
    | .error x => .error x
    | .ok s =>
      match s.info.curr with
      | [] => .ok { s with fpos := htreeEof }
      | b::bs =>
        let s := { s with info := { s.info with
          currHash := b.first.hash, currMinorHash := b.first.minorHash } }
        match callFilldir past (b.first.hash/2) b.chain s with
        | (s,true) => .ok s
        | (s,false) =>
          let s := { s with info := { s.info with curr := bs } }
          if bs=[] then
            if s.info.nextHash=4294967295 then .ok { s with fpos := htreeEof }
            else dxLoop fuel { s with info := { s.info with
              currHash := s.info.nextHash, currMinorHash := 0 } }
          else dxLoop fuel s

/-- A cursor at the end goes back to the start, and one that has been moved forgets what it has
read. -/
def rewind (c : Cursor) : DirInfo × ℕ :=
  let info := c.info.getD (createDirInfo c.fpos)
  let (info,fpos) :=
    if c.fpos=htreeEof then ({ info with lastPos := htreeEof },0) else (info,c.fpos)
  if info.lastPos≠fpos then
    ({ info with
      root := [], curr := [], extra := [], freed := false
      currHash := fpos*2%4294967296, currMinorHash := 0 },fpos)
  else (info,fpos)

def DxDir.rounds : ℕ := d.size cfg+3

def dxReaddir (c : Cursor) (resid : ℕ) : Except DxStop (Cursor × List Dirent) :=
  let (info,fpos) := rewind c
  let finished (s : Listing) : Cursor × List Dirent :=
    (⟨s.fpos,some { s.info with lastPos := s.fpos },s.dxUpdate⟩,s.out)
  let go (s : Listing) : Except DxStop (Cursor × List Dirent) :=
    let curr := if s.info.curr=[] then s.info.root else s.info.curr
    (dxLoop cfg seed past d (d.rounds cfg) { s with info := { s.info with curr := curr } }).map
      finished
  let s : Listing := ⟨info,fpos,c.dxUpdate,resid,[]⟩
  match info.extra with
  | [] => go s
  | f::fs =>
    if info.freed then .error .fault
    else match callFilldir past (f.hash/2) (f::fs) s with
      | (s,true) => .ok (finished s)
      | (s,false) => go s

def readdirIndexed (c : Cursor) (startoffset resid : ℕ) : Except DxStop (Cursor × Reading) :=
  if d.size cfg ≤ startoffset then .ok (c,⟨[],startoffset,true,false⟩)
  else if startoffset≠0 ∧ c.fpos=htreeEof then .ok (c,⟨[],startoffset,false,true⟩)
  else (dxReaddir cfg seed past d c resid).map (fun x =>
    let offset := startoffset+(x.2.map Dirent.reclen).sum
    (x.1,⟨x.2,offset,decide (x.1.fpos=htreeEof ∨ d.size cfg ≤ offset),false⟩))

end Calls

end Ext2fsX.Htree
