import Ext2fsX.Framework.Machine
import Ext2fsX.Framework.References

namespace Ext2fsX.Links

open Framework

inductive Name (ν : Type) where
  | dot
  | dotdot
  | name (n : ν)
deriving DecidableEq

/-- The entries by directory and name, and the fields of the inodes that the operations read. -/
structure Tree (ν : Type) where
  entries : RefMap (ℕ × Name ν) ℕ
  nlink : ℕ → Int16
  isDir : ℕ → Bool

/-- What fails: the checks of flags and permissions, `ext2_valloc`, `ext2_update` of the inode and
of a parent, the write of a first block, the functions that change entries, the reads of
`ext2_dirempty` and `ext2_checkpath_nolock`, and `ext2_truncate`. -/
structure Faults where
  refusedTarget : Bool
  refused : Bool
  valloc : Bool
  update : Bool
  updateParent : Bool
  write : Bool
  direnter : Bool
  dirremove : Bool
  dirrewrite : Bool
  dotdot : Bool
  dirempty : Bool
  checkpath : Bool
  truncate : Bool

def linkMax : Int16 := 32767

namespace Tree

variable {ν : Type} (s : Tree ν)

def setLinks (i : ℕ) (v : Int16) : Tree ν :=
  { s with nlink := Function.update s.nlink i v }

def bump (i : ℕ) : Tree ν := s.setLinks i (s.nlink i+1)

def unbump (i : ℕ) : Tree ν := s.setLinks i (s.nlink i-1)

/-- `(nlink_t)ip->i_nlink >= LINK_MAX`. -/
def full (i : ℕ) : Bool := decide (linkMax.toUInt16≤(s.nlink i).toUInt16)

def Dir (d : ℕ) : Prop := s.isDir d=true ∧ s.nlink d≠0

deriving instance Decidable for Tree.Dir

/-- A directory without links is not part of the tree any more, whether its blocks are freed or not.
-/
def truncate (d : ℕ) : Tree ν :=
  { s with entries := s.entries.keep (fun k => decide (k.1≠d)) }

/-- What `bad:` does to a new inode; with no link left it is cut when it is released. -/
def discard (ip : ℕ) : Tree ν := (s.setLinks ip 0).truncate ip

/-- An inode from `ext2_valloc` with its mode and link count set. -/
def alloc (ip : ℕ) (dir : Bool) (n : Int16) : Tree ν :=
  { s.setLinks ip n with isDir := Function.update s.isDir ip dir }

end Tree

namespace Tree

variable {ν : Type} [DecidableEq ν] (s : Tree ν) (f : Faults)

/-- `ext2_direnter` of a new name, or `ext2_dirrewrite_nolock` of an entry. -/
def enter (d : ℕ) (n : Name ν) (i : ℕ) : Tree ν :=
  { s with entries := s.entries.put (d,n) i }

def remove (d : ℕ) (n : Name ν) : Tree ν :=
  { s with entries := s.entries.del (d,n) }

def dirempty (d p : ℕ) : Bool :=
  !f.dirempty && decide (∀ a∈s.entries.pairs,
    a.1.1=d → a.1.2=.dot ∨ (a.1.2=.dotdot ∧ a.2=p))

def makeinode (dvp ip : ℕ) (n : ν) : Bool × Tree ν :=
  if f.valloc then (true,s)
  else if f.update || f.direnter then (true,(s.alloc ip false 1).discard ip)
  else (false,(s.alloc ip false 1).enter dvp (.name n) ip)

def link (vp tdvp : ℕ) (n : ν) : Bool × Tree ν :=
  if s.full vp || f.refused then (true,s)
  else if f.update || f.direnter then (true,(s.bump vp).unbump vp)
  else (false,(s.bump vp).enter tdvp (.name n) vp)

def unlink (dvp vp : ℕ) (n : ν) : Bool × Tree ν :=
  if f.refused || f.dirremove then (true,s)
  else (false,(s.remove dvp (.name n)).unbump vp)

def template (dp ip : ℕ) : Tree ν := (s.enter ip .dot ip).enter ip .dotdot dp

def mkdirFill (dvp ip : ℕ) (n : ν) : Bool × Tree ν :=
  if f.updateParent then (true,(s.bump dvp).discard ip)
  else if f.write then (true,((s.bump dvp).unbump dvp).discard ip)
  else if f.direnter then (true,(((s.bump dvp).template dvp ip).unbump dvp).discard ip)
  else (false,((s.bump dvp).template dvp ip).enter dvp (.name n) ip)

def mkdir (dvp ip : ℕ) (n : ν) : Bool × Tree ν :=
  if s.full dvp || f.valloc then (true,s)
  else if f.update then (true,(s.alloc ip true 2).discard ip)
  else (s.alloc ip true 2).mkdirFill f dvp ip n

def rmdir (dvp vp : ℕ) (n : ν) : Bool × Tree ν :=
  if dvp=vp then (true,s)
  else if s.nlink vp≠2 ∨ s.dirempty f vp dvp=false then (true,s)
  else if f.refused || f.dirremove then (true,s)
  else
    let t := (s.remove dvp (.name n)).unbump dvp
    (f.truncate,(t.setLinks vp (t.nlink vp-2)).truncate vp)

end Tree

structure Rename (ν : Type) where
  fdvp : ℕ
  fvp : ℕ
  fname : Name ν
  tdvp : ℕ
  tvp : Option ℕ
  tname : Name ν

namespace Rename

variable {ν : Type} [DecidableEq ν] (r : Rename ν) (s : Tree ν)

def moves : Bool := s.isDir r.fvp && decide (r.fdvp≠r.tdvp)

variable (f : Faults)

/-- The result of a call that ends before the link count of the source is bumped. -/
def stop : Option Bool :=
  if r.tvp.isSome && f.refusedTarget then some true
  else if r.tvp=some r.fvp then some false
  else if linkMax ≤ s.nlink r.fvp then some true
  else if f.refused then some true
  else if s.isDir r.fvp && (decide (r.fname=.dot) || decide (r.fdvp=r.fvp) ||
      decide (r.fname=.dotdot) || decide (r.tname=.dotdot)) then some true
  else none

def bad : Bool × Tree ν := (true,s.unbump r.fvp)

def fixDotdot : Tree ν :=
  if r.moves s then
    if f.dotdot || decide (¬s.entries.Has (r.fvp,.dotdot)) then s.unbump r.fdvp
    else (s.unbump r.fdvp).enter r.fvp .dotdot r.tdvp
  else s

def unlinkSource : Bool × Tree ν :=
  if f.dirremove then (true,r.fixDotdot s f)
  else (false,((r.fixDotdot s f).remove r.fdvp r.fname).unbump r.fvp)

def intoFree : Bool × Tree ν :=
  if r.moves s then
    if s.full r.tdvp then r.bad s
    else if f.updateParent then r.bad (s.bump r.tdvp)
    else if f.direnter then r.bad ((s.bump r.tdvp).unbump r.tdvp)
    else r.unlinkSource ((s.bump r.tdvp).enter r.tdvp r.tname r.fvp) f
  else if f.direnter then r.bad s
  else r.unlinkSource (s.enter r.tdvp r.tname r.fvp) f

def keeps (x : ℕ) : Bool :=
  if s.isDir x then !s.dirempty f x r.tdvp || decide (2 < s.nlink x) || !s.isDir r.fvp
  else s.isDir r.fvp

def dropParent : Tree ν :=
  if s.isDir r.fvp && !r.moves s then s.unbump r.tdvp else s

/-- The target `x` exists. A directory that keeps a link is a panic. -/
def intoUsed (x : ℕ) : Option (Bool × Tree ν) :=
  if r.keeps s f x || f.dirrewrite then some (r.bad s)
  else
    let t := (r.dropParent (s.enter r.tdvp r.tname r.fvp)).unbump x
    if s.isDir r.fvp then
      if (t.unbump x).nlink x≠0 then none
      else some (r.unlinkSource ((t.unbump x).truncate x) f)
    else some (r.unlinkSource t f)

/-- From the bump of the source's link count on. -/
def move : Option (Bool × Tree ν) :=
  if f.update || (r.moves s && (decide (r.tdvp=r.fvp) || f.checkpath)) then some (r.bad s)
  else
    match r.tvp with
    | none => some (r.intoFree s f)
    | some x => r.intoUsed s f x

def run : Option (Bool × Tree ν) :=
  match r.stop s f with
  | some e => some (e,s)
  | none => r.move (s.bump r.fvp) f

end Rename

/-- The operations; `ip` is the number that `ext2_valloc` gives a new inode. -/
inductive Op (ν : Type) where
  | create (f : Faults) (dvp ip : ℕ) (n : ν)
  | mkdir (f : Faults) (dvp ip : ℕ) (n : ν)
  | link (f : Faults) (vp tdvp : ℕ) (n : ν)
  | remove (f : Faults) (dvp vp : ℕ) (n : ν)
  | rmdir (f : Faults) (dvp vp : ℕ) (n : ν)
  | rename (f : Faults) (r : Rename ν)

namespace Op

variable {ν : Type} [DecidableEq ν]

def run (s : Tree ν) : Op ν → Option (Bool × Tree ν)
  | create f dvp ip n => some (s.makeinode f dvp ip n)
  | mkdir f dvp ip n => some (s.mkdir f dvp ip n)
  | link f vp tdvp n => some (s.link f vp tdvp n)
  | remove f dvp vp n => some (s.unlink f dvp vp n)
  | rmdir f dvp vp n => some (s.rmdir f dvp vp n)
  | rename f r => r.run s f

/-- Directories of the tree, entries that are there and names that are not. A new inode has no
links. `ext2_lookup` refuses "." as the target of a rename. -/
def valid (s : Tree ν) : Op ν → Bool
  | create _ dvp ip n => decide (s.Dir dvp ∧ ¬s.entries.Has (dvp,.name n) ∧ s.nlink ip=0)
  | mkdir _ dvp ip n => decide (s.Dir dvp ∧ ¬s.entries.Has (dvp,.name n) ∧ s.nlink ip=0)
  | link _ vp tdvp n => decide (s.Dir tdvp ∧ ¬s.entries.Has (tdvp,.name n) ∧ s.nlink vp≠0)
  | remove _ dvp vp n => decide (((dvp,.name n),vp)∈s.entries.pairs)
  | rmdir _ dvp vp n => decide (((dvp,.name n),vp)∈s.entries.pairs ∧ s.isDir vp=true)
  | rename _ r =>
    decide (((r.fdvp,r.fname),r.fvp)∈s.entries.pairs ∧ s.Dir r.tdvp ∧ r.tname≠.dot) &&
      match r.tvp with
      | none => decide (¬s.entries.Has (r.tdvp,r.tname))
      | some x => decide (((r.tdvp,r.tname),x)∈s.entries.pairs)

end Op

end Ext2fsX.Links
