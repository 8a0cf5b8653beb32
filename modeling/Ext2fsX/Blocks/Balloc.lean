import Ext2fsX.Blocks.Inode
import Mathlib.Logic.Function.Basic

namespace Ext2fsX.Blocks

def lbnPath (n bn : ℕ) : ℕ → ℕ → ℤ → List (ℤ × ℕ)
  | 0,_,_ => []
  | levels+1,blockcnt,metalbn =>
    let off := bn/blockcnt%n
    (metalbn,off)::lbnPath n bn levels (blockcnt/n) (metalbn+1-(off*blockcnt : ℕ))

theorem lbnPath_length (n bn levels blockcnt : ℕ) (metalbn : ℤ) :
    (lbnPath n bn levels blockcnt metalbn).length=levels := by
  induction levels generalizing blockcnt metalbn with
  | zero => rfl
  | succ levels ih => simp [lbnPath,ih]

/-- `ext2_getlbns` of a data block that is not direct: the index of its root in `i_ib`, and the
path; `none` for `EFBIG`. -/
def getlbns (n realbn : ℕ) : Option (ℕ × List (ℤ × ℕ)) :=
  let b := realbn-12
  if b<n then some (0,lbnPath n b 1 1 (-12))
  else if b-n<n^2 then some (1,lbnPath n (b-n) 2 n (-(12+n+1 : ℕ)))
  else if b-n-n^2<n^3 then some (2,lbnPath n (b-n-n^2) 3 (n^2) (-(12+n+n^2+2 : ℕ)))
  else none

namespace State

variable (g : Geometry) (env : Env) (s : State)

/-- A block that is not in the cache is read from where `ext2_bmap` finds its logical number. -/
def metaBread (lbn nb : ℤ) : Option (State × Buf) :=
  match s.cache lbn with
  | some b => some (s,b)
  | none =>
    if env.io s.clock then
      let b : Buf := ⟨g.fsbtodb nb,s.disk (g.fsbtodb nb)⟩
      some ({ s.tick with cache := fun l => if l=lbn then some b else s.cache l },b)
    else none

def put (lbn : ℤ) (b : Buf) : State :=
  { s with
    cache := fun l => if l=lbn then some b else s.cache l
    disk := fun a => if a=b.blkno then b.ptrs else s.disk a }

def newIndirect (lbn nb : ℤ) : State × Errno :=
  if env.io s.clock then (s.tick.put lbn ⟨g.fsbtodb nb,fun _ => 0⟩,.ok)
  else (s.tick.blkfree g nb g.blocksize,.eio)

/-- The loop over the indirect blocks on the path; `nb` is where the first of them is. The data
block is the last pointer. -/
def ballocPath (lbn : ℤ) :
    List (ℤ × ℕ) → ℤ → ℤ → State → State × Errno
  | [],_,_,s => (s,.ok)
  | (l,off)::rest,nb,pref,s =>
    match s.metaBread g env l nb with
    | none => (s.tick,.eio)
    | some (s,b) =>
      match rest with
      | [] =>
        if b.ptrs off=0 then
          match s.alloc g env lbn (s.blkpref env lbn off b.ptrs l) g.blocksize with
          | (s,none) => (s,.enospc)
          | (s,some newb) =>
            (s.tick.put l { b with ptrs := Function.update b.ptrs off newb },.ok)
        else if env.io s.clock then (s.tick,.ok)
        else (s.tick,.eio)
      | (l',off')::_ =>
        if b.ptrs off≠0 then ballocPath lbn rest (b.ptrs off) pref s
        else
          let pref := if pref=0 then s.blkpref env lbn off' b.ptrs l else pref
          match s.alloc g env lbn pref g.blocksize with
          | (s,none) => (s,.enospc)
          | (s,some newb) =>
            match s.newIndirect g env l' newb with
            | (s,.ok) =>
              ballocPath lbn rest newb pref
                (s.tick.put l { b with ptrs := Function.update b.ptrs off newb })
            | (s,e) => (s,e)

def ballocDirect (bn size : ℕ) :
    Except Stop (State × Errno) :=
  if s.db bn≠0 then
    if (bn+1)*g.blocksize ≤ s.size ∨
        g.fragroundup size≤g.fragroundup (s.size%g.blocksize) then
      if env.io s.clock then .ok (s.tick,.ok) else .ok (s.tick,.eio)
    else .error .wrong
  else
    let nsize := if s.size<(bn+1)*g.blocksize then g.fragroundup size else g.blocksize
    match s.alloc g env bn (s.blkpref env bn bn s.inodePtrs 0) nsize with
    | (s,none) => .ok (s,.enospc)
    | (s,some newb) => .ok ({ s with db := Function.update s.db bn newb },.ok)

def ballocIndirect (bn : ℕ) : State × Errno :=
  match getlbns g.nindir bn with
  | none => (s,.efbig)
  | some (level,path) =>
    if s.ib level≠0 then s.ballocPath g env bn path (s.ib level) 0
    else
      let pref := s.blkpref env bn (level+12) s.inodePtrs 0
      match s.alloc g env bn pref g.blocksize with
      | (s,none) => (s,.enospc)
      | (s,some newb) =>
        match s.newIndirect g env ((path.map Prod.fst).headD 0) newb with
        | (s,.ok) =>
          { s with ib := Function.update s.ib level newb }.ballocPath g env bn path newb pref
        | (s,e) => (s,e)

/-- `ext2_balloc`, with a buffer for the data. -/
def balloc (bn size : ℕ) : Except Stop (State × Errno) :=
  let s :=
    if (bn : ℤ)=s.nextAllocBlock+1 then
      { s with nextAllocBlock := s.nextAllocBlock+1, nextAllocGoal := s.nextAllocGoal+1 }
    else s
  if bn<12 then s.ballocDirect g env bn size else .ok (s.ballocIndirect g env bn)

end State

end Ext2fsX.Blocks
