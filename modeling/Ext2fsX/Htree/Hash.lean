import Mathlib.Data.List.GetD

namespace Ext2fsX.Htree

/-- The hash that places a name and the one that tells colliding names apart. A hash is even, its
lowest bit marks a key that continues a run, and it is below the one for the end of a directory. -/
structure Hashing where
  hash : List UInt8 → ℕ
  minorHash : List UInt8 → ℕ
  even : ∀ name,hash name%2=0
  below : ∀ name,hash name<4294967294

structure HashBuf where
  b0 : UInt32
  b1 : UInt32
  b2 : UInt32
  b3 : UInt32
  deriving DecidableEq

def schar (c : UInt8) : UInt32 := if c<128 then c.toUInt32 else c.toUInt32+0xffffff00

/-- The loop of `TEA_transform`, with `sum`, `b0` and `b1`. -/
def teaRounds (a b c d : UInt32) : ℕ → UInt32 → UInt32 → UInt32 → UInt32 × UInt32
  | 0,_,b0,b1 => (b0,b1)
  | n+1,sum,b0,b1 =>
    let sum := sum+0x9E3779B9
    let b0 := b0+(((b1<<<4)+a) ^^^ (b1+sum) ^^^ ((b1>>>5)+b))
    let b1 := b1+(((b0<<<4)+c) ^^^ (b0+sum) ^^^ ((b0>>>5)+d))
    teaRounds a b c d n sum b0 b1

def teaTransform (buf : HashBuf) (x : List UInt32) : HashBuf :=
  let r := teaRounds (x.getD 0 0) (x.getD 1 0) (x.getD 2 0) (x.getD 3 0) 16 0 buf.b0 buf.b1
  { buf with b0 := buf.b0+r.1, b1 := buf.b1+r.2 }

def md4F (x y z : UInt32) : UInt32 := z ^^^ (x &&& (y ^^^ z))

def md4G (x y z : UInt32) : UInt32 := (x &&& y)+((x ^^^ y) &&& z)

def md4H (x y z : UInt32) : UInt32 := x ^^^ y ^^^ z

/-- `ROUND`, after which the four words change places for the next one. -/
def md4Round (f : UInt32 → UInt32 → UInt32 → UInt32) (k : UInt32) (x : List UInt32)
    (v : HashBuf) (r : ℕ × UInt32) : HashBuf :=
  let a := v.b0+(f v.b1 v.b2 v.b3+(x.getD r.1 0+k))
  ⟨v.b3,(a<<<r.2) ||| (a>>>(32-r.2)),v.b1,v.b2⟩

def halfMD4Transform (buf : HashBuf) (x : List UInt32) : HashBuf :=
  let v := [(0,3),(1,7),(2,11),(3,19),(4,3),(5,7),(6,11),(7,19)].foldl (md4Round md4F 0 x) buf
  let v := [(1,3),(3,5),(5,9),(7,13),(0,3),(2,5),(4,9),(6,13)].foldl
    (md4Round md4G 0x5A827999 x) v
  let v := [(3,3),(7,9),(2,11),(6,15),(1,3),(5,9),(0,11),(4,15)].foldl
    (md4Round md4H 0x6ED9EBA1 x) v
  ⟨buf.b0+v.b0,buf.b1+v.b1,buf.b2+v.b2,buf.b3+v.b3⟩

/-- The loop of `dx_hack_hash`, with `hash0` and `hash1`. -/
def hackHash : UInt32 → UInt32 → List UInt8 → UInt32
  | hash0,_,[] => hash0<<<1
  | hash0,hash1,c::cs =>
    let hash := hash1+(hash0 ^^^ (schar c*7152373))
    let hash := if hash &&& 0x80000000≠0 then hash-0x7fffffff else hash
    hackHash hash hash0 cs

def dxHackHash (name : List UInt8) : UInt32 := hackHash 0x12a3fe2d 0x37abe8f9 name

/-- The loop of `str2hashbuf`: the words that are full, and the one begun. -/
def hashWords (pad : UInt32) : ℕ → UInt32 → List UInt8 → List UInt32 × UInt32
  | _,val,[] => ([],val)
  | i,val,c::cs =>
    let val := if i%4=0 then pad else val
    let val := schar c+(val<<<8)
    if i%4=3 then
      let r := hashWords pad (i+1) pad cs
      (val::r.1,r.2)
    else hashWords pad (i+1) val cs

def str2hashbuf (msg : List UInt8) (num : ℕ) : List UInt32 :=
  let len := UInt32.ofNat msg.length
  let pad := len ||| (len<<<8)
  let pad := pad ||| (pad<<<16)
  let r := hashWords pad 0 pad (msg.take (num*4))
  r.1++(if r.1.length<num then [r.2] else [])++List.replicate (num-r.1.length-1) pad

/-- The loops of `ext3fs_dirhash` over the pieces of the name. -/
def hashPieces (transform : HashBuf → List UInt32 → HashBuf) (num : ℕ) :
    ℕ → HashBuf → List UInt8 → HashBuf
  | 0,buf,_ => buf
  | fuel+1,buf,p =>
    if p.length=0 then buf
    else hashPieces transform num fuel (transform buf (str2hashbuf p num)) (p.drop (num*4))

inductive HashVersion where
  | legacy
  | halfMD4
  | tea

def HashVersion.known : ℕ → Option HashVersion
  | 0 => some .legacy
  | 1 => some .halfMD4
  | 2 => some .tea
  | _ => none

def seedBuf (seed : HashBuf) : HashBuf :=
  if seed=⟨0,0,0,0⟩ then ⟨0x67452301,0xefcdab89,0x98badcfe,0x10325476⟩ else seed

/-- The two hashes of `ext3fs_dirhash` before the first one is adjusted. -/
def rawHash (seed : HashBuf) (name : List UInt8) : HashVersion → UInt32 × UInt32
  | .legacy => (dxHackHash name,0)
  | .halfMD4 =>
    let buf := hashPieces halfMD4Transform 8 name.length (seedBuf seed) name
    (buf.b1,buf.b2)
  | .tea =>
    let buf := hashPieces teaTransform 4 name.length (seedBuf seed) name
    (buf.b0,buf.b1)

def evenHash (hash : UInt32) : ℕ :=
  let h := hash.toNat-hash.toNat%2
  if h=4294967294 then 4294967292 else h

theorem evenHash_even (hash : UInt32) : evenHash hash%2=0 := by
  unfold evenHash
  dsimp only
  split
  · rfl
  · omega

theorem evenHash_lt (hash : UInt32) : evenHash hash<4294967294 := by
  have hlt := hash.toNat_lt
  unfold evenHash
  dsimp only
  split
  · decide
  · omega

def dirhash (version : HashVersion) (seed : HashBuf) : Hashing where
  hash := fun name => evenHash (rawHash seed name version).1
  minorHash := fun name => (rawHash seed name version).2.toNat
  even := fun _ => evenHash_even _
  below := fun _ => evenHash_lt _

end Ext2fsX.Htree
