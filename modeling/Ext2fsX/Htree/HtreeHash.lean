import Ext2fsX.Directory.Lookup
import Ext2fsX.Htree.Hash

namespace Ext2fsX.Htree

variable (unsignedChar : Bool)

def charValue (c : UInt8) : UInt32 :=
  if unsignedChar then c.toUInt32 else schar c

/-- The loop of `ext2fs_prep_hashbuf`: the words that are full, and `buf_val`. -/
def prepWords (padding : UInt32) :
    ℕ → UInt32 → List UInt8 → List UInt32 × UInt32
  | _,val,[] => ([],val)
  | i,val,c::cs =>
    let val := if i%4=0 then padding else val
    let val := (val<<<8)+charValue unsignedChar c
    if i%4=3 then
      let r := prepWords padding (i+1) padding cs
      (val::r.1,r.2)
    else prepWords padding (i+1) val cs

/-- `ext2fs_prep_hashbuf` into `words` words, `dlen` being four times as many. -/
def prepHashbuf (src : List UInt8) (words : ℕ) : List UInt32 :=
  let slen := UInt32.ofNat src.length
  let padding := slen ||| (slen<<<8) ||| (slen<<<16) ||| (slen<<<24)
  let r := prepWords unsignedChar padding 0 padding (src.take (4*words))
  let dlen := words-r.1.length
  r.1++(if 1 ≤ dlen then [r.2] else [])++List.replicate (dlen-1) padding

/-- The loop of `ext2fs_legacy_hash`, with `h1` and `h2`. -/
def legacyHash : UInt32 → UInt32 → List UInt8 → UInt32
  | h1,_,[] => h1<<<1
  | h1,h2,c::cs =>
    let h0 := h2+(h1 ^^^ (charValue unsignedChar c*0x6D22F5))
    let h0 := if h0 &&& 0x80000000≠0 then h0-0x7FFFFFFF else h0
    legacyHash h0 h1 cs

def htreeF (x y z : UInt32) : UInt32 := (x &&& y) ||| (~~~x &&& z)

def htreeG (x y z : UInt32) : UInt32 := (x &&& y) ||| (x &&& z) ||| (y &&& z)

/-- `FF`, `GG` and `HH`, after which the four words change places for the next one. -/
def htreeRound (f : UInt32 → UInt32 → UInt32 → UInt32) (k : UInt32) (data : List UInt32)
    (v : HashBuf) (r : ℕ × UInt32) : HashBuf :=
  let a := v.b0+(f v.b1 v.b2 v.b3+data.getD r.1 0+k)
  ⟨v.b3,(a<<<r.2) ||| (a>>>(32-r.2)),v.b1,v.b2⟩

def halfMd4 (hash : HashBuf) (data : List UInt32) : HashBuf :=
  let v := [(0,3),(1,7),(2,11),(3,19),(4,3),(5,7),(6,11),(7,19)].foldl
    (htreeRound htreeF 0 data) hash
  let v := [(1,3),(3,5),(5,9),(7,13),(0,3),(2,5),(4,9),(6,13)].foldl
    (htreeRound htreeG 0x5A827999 data) v
  let v := [(3,3),(7,9),(2,11),(6,15),(1,3),(5,9),(0,11),(4,15)].foldl
    (htreeRound md4H 0x6ED9EBA1 data) v
  ⟨hash.b0+v.b0,hash.b1+v.b1,hash.b2+v.b2,hash.b3+v.b3⟩

/-- The loop of `ext2fs_tea`, with `i`, `x` and `y`. -/
def teaLoop (data : List UInt32) : ℕ → UInt32 → UInt32 → UInt32 → UInt32 × UInt32
  | 0,_,x,y => (x,y)
  | n+1,i,x,y =>
    let sum := i*0x9E3779B9
    let x := x+(((y<<<4)+data.getD 0 0) ^^^ (y+sum) ^^^ ((y>>>5)+data.getD 1 0))
    let y := y+(((x<<<4)+data.getD 2 0) ^^^ (x+sum) ^^^ ((x>>>5)+data.getD 3 0))
    teaLoop data n (i+1) x y

def ext2fsTea (hash : HashBuf) (data : List UInt32) : HashBuf :=
  let r := teaLoop data 16 1 hash.b0 hash.b1
  { hash with b0 := hash.b0+r.1, b1 := hash.b1+r.2 }

/-- The loops of `ext2fs_htree_hash` over the pieces of the name. -/
def htreePieces (transform : HashBuf → List UInt32 → HashBuf) (words : ℕ) :
    ℕ → HashBuf → List UInt8 → HashBuf
  | 0,hash,_ => hash
  | fuel+1,hash,name =>
    if name.length=0 then hash
    else htreePieces transform words fuel
      (transform hash (prepHashbuf unsignedChar name words)) (name.drop (4*words))

/-- Before the first one is adjusted; the versions from 3 on take unsigned characters. -/
def htreeRaw (hash : HashBuf) (name : List UInt8) : ℕ → Option (UInt32 × UInt32)
  | 0 => some (legacyHash false 0x12A3FE2D 0x37ABE8F9 name,0)
  | 1 => let r := htreePieces false halfMd4 8 name.length hash name; some (r.b1,r.b2)
  | 2 => let r := htreePieces false ext2fsTea 4 name.length hash name; some (r.b0,r.b1)
  | 3 => some (legacyHash true 0x12A3FE2D 0x37ABE8F9 name,0)
  | 4 => let r := htreePieces true halfMd4 8 name.length hash name; some (r.b1,r.b2)
  | 5 => let r := htreePieces true ext2fsTea 4 name.length hash name; some (r.b0,r.b1)
  | _ => none

/-- `ext2fs_htree_hash`; `none` is the return of -1. -/
def htreeHash (name : List UInt8) (seed : Option HashBuf) (version : ℕ) :
    Option (UInt32 × UInt32) :=
  if name.length<1 ∨ 255<name.length then none
  else
    (htreeRaw (seed.getD ⟨0x67452301,0xEFCDAB89,0x98BADCFE,0x10325476⟩) name version).map
      fun r =>
        let major := r.1 &&& 0xFFFFFFFE
        (if major=0xFFFFFFFE then 0xFFFFFFFC else major,r.2)

def HashVersion.number : HashVersion → ℕ
  | .legacy => 0
  | .halfMD4 => 1
  | .tea => 2

/-- The two functions give the same hashes for a name. -/
def SameHash (version : HashVersion) (seed : HashBuf) (name : Directory.Name) : Prop :=
  (htreeHash name.bytes (some seed) version.number).map (fun r => (r.1.toNat,r.2.toNat))=
    some ((dirhash version seed).hash name.bytes,(dirhash version seed).minorHash name.bytes)

theorem htreeF_eq (x y z : UInt32) : htreeF x y z=md4F x y z := by
  apply UInt32.eq_of_toBitVec_eq
  simp [htreeF,md4F]
  grind

/-- The two terms of the sum have no bit in common. -/
theorem htreeG_eq (x y z : UInt32) : htreeG x y z=md4G x y z := by
  apply UInt32.eq_of_toBitVec_eq
  simp only [htreeG,md4G,UInt32.toBitVec_or,UInt32.toBitVec_and,UInt32.toBitVec_add,
    UInt32.toBitVec_xor]
  rw [BitVec.add_eq_or_of_and_eq_zero]
  · ext i hi
    simp
    grind
  · ext i hi
    simp
    grind

theorem padding_eq (n : UInt32) :
    n ||| (n<<<8) ||| (n<<<16) ||| (n<<<24)=(n ||| (n<<<8)) ||| ((n ||| (n<<<8))<<<16) := by
  apply UInt32.eq_of_toBitVec_eq
  simp
  grind

theorem legacyHash_eq (h1 h2 : UInt32) (name : List UInt8) :
    legacyHash false h1 h2 name=hackHash h1 h2 name := by
  induction name generalizing h1 h2 with
  | nil => rfl
  | cons c cs ih =>
    rw [legacyHash,hackHash]
    simp [ih,charValue]

theorem prepWords_eq (pad : UInt32) (i : ℕ) (val : UInt32) (name : List UInt8) :
    prepWords false pad i val name=hashWords pad i val name := by
  induction name generalizing i val with
  | nil => rfl
  | cons c cs ih =>
    rw [prepWords,hashWords]
    simp only [ih,charValue,Bool.false_eq_true,if_false]
    rw [UInt32.add_comm]

theorem prepHashbuf_eq (src : List UInt8) (words : ℕ) :
    prepHashbuf false src words=str2hashbuf src words := by
  unfold prepHashbuf str2hashbuf
  simp only [padding_eq,prepWords_eq,Nat.mul_comm 4,Nat.succ_le_iff,Nat.sub_pos_iff_lt]

theorem htreeRound_eq {f g : UInt32 → UInt32 → UInt32 → UInt32} (h : ∀ x y z,f x y z=g x y z)
    (k : UInt32) : htreeRound f k=md4Round g k := by
  funext data v r
  unfold htreeRound md4Round
  rw [h,UInt32.add_assoc (g _ _ _)]

theorem halfMd4_eq : halfMd4=halfMD4Transform := by
  funext hash data
  unfold halfMd4 halfMD4Transform
  rw [htreeRound_eq htreeF_eq,htreeRound_eq htreeG_eq,htreeRound_eq fun _ _ _ => rfl]

/-- The sum that is kept up is the multiple that is computed anew. -/
theorem teaLoop_eq (data : List UInt32) (n : ℕ) {i sum : UInt32} (x y : UInt32)
    (h : sum+0x9E3779B9=i*0x9E3779B9) : teaLoop data n i x y=
      teaRounds (data.getD 0 0) (data.getD 1 0) (data.getD 2 0) (data.getD 3 0) n sum x y := by
  induction n generalizing i sum x y with
  | zero => rfl
  | succ n ih =>
    rw [teaLoop,teaRounds]
    simp only [h]
    apply ih
    rw [UInt32.add_mul,UInt32.one_mul]

theorem ext2fsTea_eq : ext2fsTea=teaTransform := by
  funext hash data
  unfold ext2fsTea teaTransform
  rw [teaLoop_eq data 16 _ _ (by decide : (0 : UInt32)+0x9E3779B9=1*0x9E3779B9)]

theorem htreePieces_eq (transform : HashBuf → List UInt32 → HashBuf) (words fuel : ℕ)
    (hash : HashBuf) (name : List UInt8) :
    htreePieces false transform words fuel hash name=hashPieces transform words fuel hash name := by
  induction fuel generalizing hash name with
  | zero => rfl
  | succ fuel ih =>
    rw [htreePieces,hashPieces]
    simp only [ih,prepHashbuf_eq,Nat.mul_comm 4]

theorem major_toNat (h : UInt32) :
    (if h &&& 0xFFFFFFFE=0xFFFFFFFE then 0xFFFFFFFC else h &&& 0xFFFFFFFE : UInt32).toNat=
      evenHash h := by
  have hand : (h &&& 0xFFFFFFFE).toNat=h.toNat-h.toNat%2 := by
    have hhalf : (h.toNat &&& 4294967294)/2=h.toNat/2 := by
      have hlt := h.toNat_lt
      rw [Nat.and_div_two,Nat.and_two_pow_sub_one_eq_mod _ 31,Nat.mod_eq_of_lt (by omega)]
    have heven : (h.toNat &&& 4294967294)%2=0 := by
      rw [Nat.and_mod_two_pow (n:=1)]
      simp
    change h.toNat &&& 4294967294=_
    omega
  unfold evenHash
  simp only [← UInt32.toNat_inj,hand]
  split <;> simp_all

/-- Before the adjustment the two functions differ in the seed they start from. -/
theorem htreeRaw_eq (version : HashVersion) {seed : HashBuf} (name : List UInt8)
    (h : version=.legacy ∨ seed≠⟨0,0,0,0⟩) :
    htreeRaw seed name version.number=some (rawHash seed name version) := by
  cases version with
  | legacy => exact congrArg (fun r => some (r,0)) (legacyHash_eq _ _ _)
  | halfMD4 =>
    have hseed : seedBuf seed=seed := if_neg (h.resolve_left (by simp))
    simp only [HashVersion.number,htreeRaw,rawHash,hseed,halfMd4_eq,htreePieces_eq]
  | tea =>
    have hseed : seedBuf seed=seed := if_neg (h.resolve_left (by simp))
    simp only [HashVersion.number,htreeRaw,rawHash,hseed,ext2fsTea_eq,htreePieces_eq]

/-- The two hash functions of the source agree on every name, but for TEA and MD4 with a seed of
zeros. -/
theorem sameHash_iff (version : HashVersion) (seed : HashBuf) :
    (∀ name,SameHash version seed name) ↔ version=.legacy ∨ seed≠⟨0,0,0,0⟩ := by
  constructor
  · intro h
    apply Classical.byContradiction
    intro hn
    obtain ⟨hv,hs⟩ := not_or.mp hn
    rw [Classical.not_not.mp hs] at h
    have hname := h ⟨[97],by decide,by decide⟩
    cases version with
    | legacy => exact hv rfl
    | _ => exact absurd hname (by unfold SameHash; decide +kernel)
  · intro h name
    unfold SameHash htreeHash
    have hpos := List.length_pos_of_ne_nil name.ne_nil
    have hshort := name.short
    rw [if_neg (by omega),Option.getD_some,htreeRaw_eq _ _ h]
    simp only [Option.map_some,major_toNat]
    rfl

/-- With a seed of zeros the first function starts from zeros, the second one from its defaults. -/
theorem htreeHash_zero_seed :
    htreeHash [97] (some ⟨0,0,0,0⟩) 2≠none ∧
      ¬SameHash .tea ⟨0,0,0,0⟩ ⟨[97],by decide,by decide⟩ := by
  unfold SameHash
  decide +kernel

end Ext2fsX.Htree
