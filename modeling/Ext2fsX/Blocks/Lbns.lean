import Ext2fsX.Blocks.Truncate
import Mathlib.Data.Nat.Digits.Defs

namespace Ext2fsX.Blocks

def checked (x : ℤ) : Option ℤ := if -2^31≤x ∧ x<2^31 then some x else none

/-- What `ext2_getlbns` returns: `EFBIG`, or the pairs it has stored. -/
inductive Lbns where
  | efbig
  | path (a : List (ℤ × ℤ))

/-- `i` counted down from `NIADDR`. The product is a 64-bit number. -/
def findLevel (n : ℕ) : ℕ → ℤ → ℤ → Option (Option (ℕ × ℤ × ℤ))
  | 0,_,_ => some none
  | i+1,blockcnt,bn =>
    if bn<blockcnt*n then some (some (i+1,blockcnt,bn))
    else do
      let blockcnt ← checked (blockcnt*n)
      let bn ← checked (bn-blockcnt)
      findLevel n i blockcnt bn

def storeLoop (n : ℕ) (realbn bn : ℤ) : ℕ → ℤ → ℤ → Option (List (ℤ × ℤ))
  | 0,_,_ => some []
  | k+1,blockcnt,metalbn =>
    if metalbn=realbn then some []
    else do
      let off := bn/blockcnt%n
      let skip ← checked (off*blockcnt)
      let skip ← checked (-1+skip)
      let next ← checked (metalbn-skip)
      let rest ← storeLoop n realbn bn k (blockcnt/n) next
      return (metalbn,off)::rest

def absolute (realbn : ℤ) : Option ℤ := if realbn<0 then checked (-realbn) else some realbn

/-- `ext2_getlbns` for any logical number, in checked 32-bit arithmetic. -/
def getlbns32 (n : ℕ) (realbn : ℤ) : Option Lbns := do
  let absbn ← absolute realbn
  if absbn<12 then return .path []
  else
    let bn ← checked (absbn-12)
    match ← findLevel n 3 1 bn with
    | none => return .efbig
    | some (i,blockcnt,bn) =>
      let base ← checked (absbn-bn)
      let base ← checked (base+3)
      let base ← checked (base-i)
      let metalbn ← checked (-base)
      let rest ← storeLoop n realbn bn (4-i) blockcnt metalbn
      return .path ((metalbn,3-i)::rest)

/-- Indirect block `q` of level `t` (0: single) under `i_ib[r]`: the negative of its first data
block, less one for each level. -/
def metaLbn (n r t q : ℕ) : ℤ := -((rootStart n r+q*n^(t+1)+t : ℕ) : ℤ)

def descend (n r x : ℕ) : ℕ → List (ℤ × ℤ)
  | 0 => []
  | h+1 => (metaLbn n r h (x/n^(h+1)),((x/n^h%n : ℕ) : ℤ))::descend n r x h

theorem descend_length (n r x h : ℕ) : (descend n r x h).length=h := by
  induction h with
  | zero => rfl
  | succ h ih => rw [descend,List.length_cons,ih]

theorem descend_get (n r x : ℕ) {t h : ℕ} (ht : t<h) :
    (descend n r x h)[h-1-t]?=some (metaLbn n r t (x/n^(t+1)),((x/n^t%n : ℕ) : ℤ)) := by
  induction h with
  | zero => cases ht
  | succ h ih =>
    by_cases he : t=h
    · rw [he,Nat.add_sub_cancel,Nat.sub_self]
      rfl
    · rw [descend,show h+1-1-t=h-1-t+1 by omega,List.getElem?_cons_succ]
      exact ih (by omega)

theorem descend_take_congr (n r : ℕ) {x y t : ℕ} (h : ℕ) (hxy : x/n^(t+1)=y/n^(t+1)) :
    (descend n r x h).take (h-(t+1))=(descend n r y h).take (h-(t+1)) := by
  induction h with
  | zero => rfl
  | succ h ih =>
    by_cases hlt : h<t+1
    · rw [show h+1-(t+1)=0 by omega]
      rfl
    · have hdiv (k : ℕ) (hk : t+1≤k) : x/n^k=y/n^k := by
        rw [show k=t+1+(k-(t+1)) by omega,Nat.pow_add,← Nat.div_div_eq_div_mul,hxy,
          Nat.div_div_eq_div_mul]
      rw [show h+1-(t+1)=h-(t+1)+1 by omega,descend,descend,List.take_succ_cons,
        List.take_succ_cons,ih,hdiv h (by omega),hdiv (h+1) (by omega)]

def offsets (n x : ℕ) : ℕ → List ℕ
  | 0 => []
  | h+1 => x/n^h%n::offsets n x h

theorem descend_offsets (n r x h : ℕ) :
    (descend n r x h).map Prod.snd=(offsets n x h).map (Nat.cast : ℕ → ℤ) := by
  induction h with
  | zero => rfl
  | succ h ih => rw [descend,offsets,List.map_cons,List.map_cons,ih]

theorem ofDigits_offsets (n x h : ℕ) : Nat.ofDigits n (offsets n x h).reverse=x%n^h := by
  have hlen (k : ℕ) : (offsets n x k).length=k := by
    induction k with
    | zero => rfl
    | succ k ih => rw [offsets,List.length_cons,ih]
  induction h with
  | zero => simp [offsets,Nat.mod_one]
  | succ h ih =>
    rw [offsets,List.reverse_cons,Nat.ofDigits_append,ih,List.length_reverse,hlen,
      Nat.ofDigits_singleton,Nat.mod_pow_succ]

theorem offsets_lt (n x h : ℕ) (hn : 0<n) : ∀ o ∈ offsets n x h,o<n := by
  induction h with
  | zero => simp [offsets]
  | succ h ih =>
    rw [offsets,List.forall_mem_cons]
    exact ⟨Nat.mod_lt _ hn,ih⟩

theorem checked_of {x : ℤ} (h1 : -2^31≤x) (h2 : x<2^31) : checked x=some x := if_pos ⟨h1,h2⟩

theorem checked_bind {α : Type} {x : ℤ} {f : ℤ → Option α} (h1 : -2^31≤x) (h2 : x<2^31) :
    (checked x).bind f=f x := by
  rw [checked_of h1 h2,Option.bind_some]

section Radix

variable {n : ℕ}

theorem div_pow_succ (x h : ℕ) : x/n^h=x/n^(h+1)*n+x/n^h%n := by
  rw [Nat.pow_succ,← Nat.div_div_eq_div_mul]
  have hd := Nat.div_add_mod (x/n^h) n
  rw [Nat.mul_comm] at hd
  omega

theorem metaLbn_child (r t q i : ℕ) :
    metaLbn n r t (q*n+i)=metaLbn n r (t+1) q+1-((i*n^(t+1) : ℕ) : ℤ) := by
  unfold metaLbn
  push_cast
  ring

theorem metaLbn_next (r x h : ℕ) :
    metaLbn n r (h+1) (x/n^(h+2))-(-1+((x/n^(h+1)%n : ℕ) : ℤ)*(n^(h+1) : ℕ))=
      metaLbn n r h (x/n^(h+1)) := by
  have hc := metaLbn_child (n := n) r h (x/n^(h+2)) (x/n^(h+1)%n)
  rw [← div_pow_succ x (h+1)] at hc
  rw [hc]
  push_cast
  ring

end Radix

section Bounds

variable {n r x : ℕ}

theorem pow_bounds (hn : n≤1024) : n^2≤2^20 ∧ n^3≤2^30 :=
  ⟨Nat.pow_le_pow_left hn 2,Nat.pow_le_pow_left hn 3⟩

theorem rootStart_bound (hn : n≤1024) (hr : r<3) : rootStart n r≤2^21 := by
  obtain ⟨h2,-⟩ := pow_bounds hn
  match r,hr with
  | 0,_ => simp only [rootStart]; omega
  | 1,_ => simp only [rootStart,Nat.zero_add,Nat.pow_one]; omega
  | 2,_ => simp only [rootStart,Nat.zero_add,Nat.pow_one,Nat.reduceAdd]; omega

theorem findLevel_next {i : ℕ} {cnt b : ℤ} (h0 : 0 ≤ cnt*n) (hle : cnt*n≤b) (hlt : b<2^31) :
    findLevel n (i+1) cnt b=findLevel n i (cnt*n) (b-cnt*n) := by
  rw [findLevel,if_neg (by omega),Option.bind_eq_bind,checked_bind (by omega) (by omega),
    checked_bind (by omega) (by omega)]

theorem findLevel_eq (hn : n≤1024) (hr : r<3) (hx : x<n^(r+1)) :
    findLevel n 3 1 ((rootStart n r+x : ℕ)-12 : ℤ)=some (some (3-r,((n^r : ℕ) : ℤ),(x : ℤ))) := by
  obtain ⟨h2,h3⟩ := pow_bounds hn
  match r,hr with
  | 0,_ =>
    rw [Nat.zero_add,Nat.pow_one] at hx
    rw [findLevel,if_pos (by simp only [rootStart]; omega)]
    simp [rootStart]
  | 1,_ =>
    have hx : x<n^2 := hx
    have hsq : (n : ℤ)*n=((n^2 : ℕ) : ℤ) := by push_cast; ring
    have hb : ((rootStart n 1+x : ℕ) : ℤ)-12=(n : ℤ)+x := by
      simp only [rootStart,Nat.zero_add,Nat.pow_one]
      omega
    rw [hb,findLevel_next (by omega) (by omega) (by omega),one_mul,add_sub_cancel_left,findLevel,
      if_pos (by omega),Nat.pow_one]
  | 2,_ =>
    have hx : x<n^3 := hx
    have hsq : (n : ℤ)*n=((n^2 : ℕ) : ℤ) := by push_cast; ring
    have hcube : ((n^2 : ℕ) : ℤ)*n=((n^3 : ℕ) : ℤ) := by push_cast; ring
    have hb : ((rootStart n 2+x : ℕ) : ℤ)-12=(n : ℤ)+((n^2 : ℕ)+x) := by
      simp only [rootStart,Nat.zero_add,Nat.pow_one,Nat.reduceAdd]
      omega
    rw [hb,findLevel_next (by omega) (by omega) (by omega),one_mul,add_sub_cancel_left,
      findLevel_next (by omega) (by omega) (by omega),hsq,add_sub_cancel_left,findLevel,hcube,
      if_pos (by omega)]

theorem findLevel_efbig (hn : n≤1024) {b : ℤ} (hb : ((n+n^2+n^3 : ℕ) : ℤ)≤b) (hlt : b<2^31) :
    findLevel n 3 1 b=some none := by
  have hsq : (n : ℤ)*n=((n^2 : ℕ) : ℤ) := by push_cast; ring
  have hcube : ((n^2 : ℕ) : ℤ)*n=((n^3 : ℕ) : ℤ) := by push_cast; ring
  rw [findLevel_next (by omega) (by omega) hlt,one_mul,
    findLevel_next (by omega) (by omega) (by omega),hsq,
    findLevel_next (by omega) (by omega) (by omega),findLevel]

theorem indirLbn_eq (hx : x<n^(r+1)) : indirLbn n r=metaLbn n r r (x/n^(r+1)) := by
  rw [Nat.div_eq_of_lt hx]
  simp [indirLbn,metaLbn]

section

variable (h1 : 1≤n) (hn : n≤1024) (hr : r<3) (hx : x<n^(r+1))

include h1 hn hr hx

theorem data_bound : x<2^30 := by
  obtain ⟨-,h3⟩ := pow_bounds hn
  have hle : n^(r+1)≤n^3 := Nat.pow_le_pow_right h1 (by omega)
  omega

theorem metaLbn_bound (t : ℕ) (ht : t≤2) :
    -2^31+2^29 ≤ metaLbn n r t (x/n^(t+1)) ∧ metaLbn n r t (x/n^(t+1))<0 := by
  have hs := rootStart_bound hn hr
  have hb := data_bound h1 hn hr hx
  have hd := Nat.div_mul_le_self x (n^(t+1))
  have h12 := rootStart_ge n r
  unfold metaLbn
  omega

theorem storeLoop_step {realbn : ℤ} {h : ℕ}
    (hh : h≤2) (hne : metaLbn n r h (x/n^(h+1))≠realbn) (k : ℕ) :
    storeLoop n realbn x (k+1) (n^h : ℕ) (metaLbn n r h (x/n^(h+1)))=
      (storeLoop n realbn x k ((n^h/n : ℕ) : ℤ)
        (metaLbn n r h (x/n^(h+1))-(-1+((x/n^h%n : ℕ) : ℤ)*(n^h : ℕ)))).map
        (List.cons (metaLbn n r h (x/n^(h+1)),((x/n^h%n : ℕ) : ℤ))) := by
  have hb := data_bound h1 hn hr hx
  have hoff : (x : ℤ)/((n^h : ℕ) : ℤ)%n=((x/n^h%n : ℕ) : ℤ) := by
    rfl
  have hskip : x/n^(h+1)*n^(h+1)+x/n^h%n*n^h≤x := by
    have hd := Nat.div_mul_le_self x (n^h)
    rw [div_pow_succ x h,Nat.add_mul,Nat.mul_assoc,← Nat.pow_succ'] at hd
    exact hd
  have hs := rootStart_bound hn hr
  have hlbn : metaLbn n r h (x/n^(h+1))=-((rootStart n r+x/n^(h+1)*n^(h+1)+h : ℕ) : ℤ) := rfl
  have hcast : ((x/n^h%n : ℕ) : ℤ)*(n^h : ℕ)=((x/n^h%n*n^h : ℕ) : ℤ) := by
    rfl
  rw [storeLoop,if_neg hne]
  simp only [hoff,hcast,Option.bind_eq_bind]
  rw [checked_bind (by omega) (by omega),checked_bind (by omega) (by omega),
    checked_bind (by omega) (by omega)]
  rw [show ((n^h : ℕ) : ℤ)/(n : ℤ)=((n^h/n : ℕ) : ℤ) by push_cast; rfl]
  cases storeLoop n realbn x k ((n^h/n : ℕ) : ℤ)
    (metaLbn n r h (x/n^(h+1))-(-1+((x/n^h%n*n^h : ℕ) : ℤ))) <;> rfl

theorem storeLoop_eq (realbn : ℤ) (s : ℕ)
    (h : ℕ) (hh : h≤2) (hs : s≤h+1) (hmeet : ∀ t≤h,metaLbn n r t (x/n^(t+1))=realbn ↔ t+1=s) :
    storeLoop n realbn x (h+1) (n^h : ℕ) (metaLbn n r h (x/n^(h+1)))=
      some ((descend n r x (h+1)).take (h+1-s)) := by
  induction h with
  | zero =>
    by_cases hz : 1=s
    · rw [storeLoop,if_pos ((hmeet 0 le_rfl).mpr hz),← hz]
      rfl
    · rw [storeLoop_step h1 hn hr hx hh (fun he => hz ((hmeet 0 le_rfl).mp he)),storeLoop,
        show s=0 by omega]
      rfl
  | succ h ih =>
    by_cases hz : h+1+1=s
    · rw [storeLoop,if_pos ((hmeet _ le_rfl).mpr hz),hz,Nat.sub_self,List.take_zero]
    · have hpow : n^(h+1)/n=n^h := by rw [Nat.pow_succ,Nat.mul_div_cancel _ h1]
      rw [storeLoop_step h1 hn hr hx hh (fun he => hz ((hmeet _ le_rfl).mp he)),metaLbn_next,hpow,
        ih (by omega) (by omega) (fun t ht => hmeet t (by omega)),
        show h+1+1-s=h+1-s+1 by omega]
      rfl

/-- What `ext2_getlbns` finds for a number whose absolute value is that of data block `x`
of root `r`. -/
theorem getlbns32_eq {realbn : ℤ} {s : ℕ}
    (habs : realbn=(rootStart n r+x : ℕ) ∨ realbn=-((rootStart n r+x : ℕ) : ℤ)) (hs : s ≤ r+1)
    (hmeet : ∀ t ≤ r,metaLbn n r t (x/n^(t+1))=realbn ↔ t+1=s) :
    getlbns32 n realbn=
      some (.path ((indirLbn n r,(r : ℤ))::(descend n r x (r+1)).take (r+1-s))) := by
  have hb := data_bound h1 hn hr hx
  have hstart := rootStart_bound hn hr
  have h12 := rootStart_ge n r
  have hroot := indirLbn_eq hx
  have hloop := storeLoop_eq h1 hn hr hx realbn s r (by omega) hs hmeet
  have hbn : absolute realbn=some ((rootStart n r+x : ℕ) : ℤ) := by
    unfold absolute
    rcases habs with rfl | rfl
    · rw [if_neg (by omega)]
    · rw [if_pos (by omega),neg_neg,checked_of (by omega) (by omega)]
  unfold getlbns32
  rw [hbn]
  simp only [Option.bind_eq_bind,Option.bind_some]
  rw [if_neg (by omega),checked_bind (by omega) (by omega),findLevel_eq hn hr hx]
  simp only [Option.bind_some]
  rw [checked_bind (by omega) (by omega),checked_bind (by omega) (by omega),
    checked_bind (by omega) (by omega),checked_bind (by omega) (by omega)]
  have hmeta : -(((rootStart n r+x : ℕ) : ℤ)-x+3-((3-r : ℕ) : ℤ))=metaLbn n r r (x/n^(r+1)) := by
    rw [← hroot]
    unfold indirLbn
    omega
  rw [hmeta,show 4-(3-r)=r+1 by omega,hloop,hroot]
  rw [show (3 : ℤ)-((3-r : ℕ) : ℤ)=r by omega]
  rfl

theorem getlbns32_data : getlbns32 n ((rootStart n r+x : ℕ) : ℤ)=
      some (.path ((indirLbn n r,(r : ℤ))::descend n r x (r+1))) := by
  have hmeet (t : ℕ) (ht : t ≤ r) :
      metaLbn n r t (x/n^(t+1))=((rootStart n r+x : ℕ) : ℤ) ↔ t+1=0 := by
    have hm := (metaLbn_bound h1 hn hr hx t (by omega)).2
    constructor
    · intro he
      omega
    · intro he
      cases he
  have h := getlbns32_eq h1 hn hr hx (.inl rfl) (Nat.zero_le _) hmeet
  rw [h,List.take_of_length_le]
  rw [descend_length]
  exact le_rfl

end

theorem level_lt_pow (h3 : 3≤n) {t : ℕ} (ht : t≤2) : t<n^(t+1) := by
  have hle := Nat.pow_le_pow_right (show 1≤n by omega) (show 1 ≤ t+1 by omega)
  rw [Nat.pow_one] at hle
  omega

theorem metaLbn_meets (h3 : 3≤n) {t q l : ℕ} (ht : t≤2) (hl : l≤2) (r : ℕ) :
    metaLbn n r l ((q*n^(t+1)+t)/n^(l+1))=metaLbn n r t q ↔ l=t := by
  have hmod : (q*n^(t+1)+t)%n=t := by
    rw [Nat.pow_succ,← Nat.mul_assoc,Nat.mul_add_mod_self_right,Nat.mod_eq_of_lt (by omega)]
  constructor
  · intro he
    have hd := Nat.div_add_mod' (q*n^(t+1)+t) (n^(l+1))
    have hrest : (q*n^(t+1)+t)%n^(l+1)=l := by
      unfold metaLbn at he
      omega
    have hlow : (q*n^(t+1)+t)%n^(l+1)%n=(q*n^(t+1)+t)%n :=
      Nat.mod_mod_of_dvd _ (Dvd.intro_left (n^l) rfl)
    rw [hrest,hmod,Nat.mod_eq_of_lt (by omega)] at hlow
    exact hlow
  · rintro rfl
    have hpos : 0<n^(l+1) := Nat.pow_pos (by omega)
    have hlt := level_lt_pow h3 hl
    rw [Nat.mul_comm,Nat.mul_add_div hpos,Nat.div_eq_of_lt hlt,Nat.add_zero]

theorem getlbns32_meta (h3 : 3≤n) (hn : n≤1024) (hr : r<3) {t q : ℕ} (ht : t ≤ r) (hq : q<n^(r-t)) :
    getlbns32 n (metaLbn n r t q)=
      some (.path ((indirLbn n r,(r : ℤ))::(descend n r (q*n^(t+1)+t) (r+1)).take (r-t))) := by
  have hx : q*n^(t+1)+t<n^(r+1) := by
    have hlt := level_lt_pow h3 (show t≤2 by omega)
    have hmul := Nat.mul_le_mul_right (n^(t+1)) hq
    rw [← Nat.pow_add,show r-t+(t+1)=r+1 by omega,Nat.succ_mul] at hmul
    omega
  have hmeet (l : ℕ) (hl : l ≤ r) :
      metaLbn n r l ((q*n^(t+1)+t)/n^(l+1))=metaLbn n r t q ↔ l+1=t+1 := by
    rw [metaLbn_meets h3 (by omega) (by omega) r]
    omega
  have hneg : metaLbn n r t q=-((rootStart n r+(q*n^(t+1)+t) : ℕ) : ℤ) := by
    unfold metaLbn
    omega
  have h := getlbns32_eq (by omega) hn hr hx (.inr hneg) (by omega) hmeet
  rw [h,show r+1-(t+1)=r-t by omega]

theorem absolute_nat (bn : ℕ) : absolute bn=some (bn : ℤ) := if_neg (by omega)

theorem getlbns32_direct (bn : ℕ) (h : bn<12) : getlbns32 n bn=some (.path []) := by
  unfold getlbns32
  simp only [absolute_nat,Option.bind_eq_bind,Option.bind_some]
  rw [if_pos (by omega)]
  rfl

theorem getlbns32_efbig (hn : n≤1024) {bn : ℕ} (h : 12+n+n^2+n^3≤bn) (hlt : (bn : ℤ)-12<2^31) :
    getlbns32 n bn=some .efbig := by
  unfold getlbns32
  simp only [absolute_nat,Option.bind_eq_bind,Option.bind_some]
  rw [if_neg (by omega),checked_bind (by omega) hlt,findLevel_efbig hn (by omega) hlt]
  rfl

theorem data_of_lt {bn : ℕ} (h1 : 12≤bn) (h2 : bn<12+n+n^2+n^3) :
    ∃ r<3,∃ x<n^(r+1),bn=rootStart n r+x := by
  by_cases hs : bn<12+n
  · refine ⟨0,by decide,bn-12,?_,?_⟩
    · rw [Nat.zero_add,Nat.pow_one]
      omega
    · simp only [rootStart]
      omega
  by_cases hd : bn<12+n+n^2
  · refine ⟨1,by decide,bn-(12+n),?_,?_⟩
    · simp only [Nat.reduceAdd]
      omega
    · simp only [rootStart,Nat.zero_add,Nat.pow_one]
      omega
  · refine ⟨2,by decide,bn-(12+n+n^2),?_,?_⟩
    · simp only [Nat.reduceAdd]
      omega
    · simp only [rootStart,Nat.zero_add,Nat.pow_one,Nat.reduceAdd]
      omega

theorem metaLbn_inj (h3 : 3≤n) (hn : n≤1024) {r t q r' t' q' : ℕ} (hr : r<3) (ht : t ≤ r)
    (hq : q<n^(r-t)) (hr' : r'<3) (ht' : t' ≤ r') (hq' : q'<n^(r'-t'))
    (h : metaLbn n r t q=metaLbn n r' t' q') : r=r' ∧ t=t' ∧ q=q' := by
  have hp := getlbns32_meta h3 hn hr ht hq
  have hp' := getlbns32_meta h3 hn hr' ht' hq'
  rw [h,hp'] at hp
  injection hp with hp
  injection hp with hp
  injection hp with hhead htail
  have hrr : r'=r := by
    have hsnd := congrArg Prod.snd hhead
    omega
  subst hrr
  have htt : t'=t := by
    have hlen := congrArg List.length htail
    rw [List.length_take,List.length_take,descend_length,descend_length] at hlen
    omega
  subst htt
  refine ⟨rfl,rfl,?_⟩
  have hpos : 0<n^(t'+1) := Nat.pow_pos (by omega)
  unfold metaLbn at h
  exact Nat.eq_of_mul_eq_mul_right hpos (by omega)

theorem descend_mem {c : ℤ × ℤ} {h : ℕ} (hc : c ∈ descend n r x h) :
    ∃ t<h,c.1=metaLbn n r t (x/n^(t+1)) := by
  induction h with
  | zero => cases hc
  | succ h ih =>
    rcases List.mem_cons.mp hc with rfl | hc
    · exact ⟨h,Nat.lt_succ_self h,rfl⟩
    · obtain ⟨t,ht,he⟩ := ih hc
      exact ⟨t,by omega,he⟩

theorem descend_nodup (h3 : 3≤n) (hn : n≤1024) (hr : r<3) (hx : x<n^(r+1)) {h : ℕ} (hh : h ≤ r+1) :
    ((descend n r x h).map Prod.fst).Nodup := by
  have hq (t : ℕ) (ht : t ≤ r) : x/n^(t+1)<n^(r-t) := by
    rw [Nat.div_lt_iff_lt_mul (Nat.pow_pos (by omega)),← Nat.pow_add,show r-t+(t+1)=r+1 by omega]
    exact hx
  induction h with
  | zero => exact List.nodup_nil
  | succ h ih =>
    rw [descend,List.map_cons,List.nodup_cons]
    refine ⟨fun hm => ?_,ih (by omega)⟩
    obtain ⟨c,hc,he⟩ := List.mem_map.mp hm
    obtain ⟨t,ht,hct⟩ := descend_mem hc
    have hsame := metaLbn_inj h3 hn hr (show t ≤ r by omega) (hq t (by omega)) hr
      (show h ≤ r by omega) (hq h (by omega)) (hct.symm.trans he)
    omega

/-- The walk of `ext2_balloc2` is that of `ext2_getlbns`. -/
theorem lbnPath_eq (h1 : 1≤n) (r x h : ℕ) :
    (lbnPath n x (h+1) (n^h) (metaLbn n r h (x/n^(h+1)))).map (Prod.map id (Nat.cast : ℕ → ℤ))=
      descend n r x (h+1) := by
  induction h with
  | zero => rfl
  | succ h ih =>
    have hpow : n^(h+1)/n=n^h := by rw [Nat.pow_succ,Nat.mul_div_cancel _ h1]
    have hnext := metaLbn_next (n := n) r x h
    have hchild : metaLbn n r (h+1) (x/n^(h+2))+1-((x/n^(h+1)%n*n^(h+1) : ℕ) : ℤ)=
        metaLbn n r h (x/n^(h+1)) := by
      rw [← hnext]
      push_cast
      ring
    rw [lbnPath,List.map_cons,hpow,hchild,ih]
    rfl

theorem lbnPath_numbers (h3 : 3≤n) (hn : n≤1024) (hr : r<3) (hx : x<n^(r+1)) :
    (∀ c ∈ lbnPath n x (r+1) (n^r) (indirLbn n r),c.1<0) ∧
      ((lbnPath n x (r+1) (n^r) (indirLbn n r)).map Prod.fst).Nodup := by
  have hfst : (lbnPath n x (r+1) (n^r) (indirLbn n r)).map Prod.fst=
      (descend n r x (r+1)).map Prod.fst := by
    rw [indirLbn_eq hx,← lbnPath_eq (by omega) r x r,List.map_map]
    rfl
  constructor
  · intro c hc
    have hm : c.1 ∈ (descend n r x (r+1)).map Prod.fst := hfst ▸ List.mem_map_of_mem hc
    obtain ⟨d,hd,he⟩ := List.mem_map.mp hm
    obtain ⟨t,ht,hdt⟩ := descend_mem hd
    rw [← he,hdt]
    exact (metaLbn_bound (by omega) hn hr hx t (by omega)).2
  · rw [hfst]
    exact descend_nodup h3 hn hr hx le_rfl

theorem getlbns_root (r : ℕ) (hr : r<3) (hx : x<n^(r+1)) :
    getlbns n (rootStart n r+x)=some (r,lbnPath n x (r+1) (n^r) (indirLbn n r)) := by
  unfold getlbns
  match r,hr with
  | 0,_ =>
    rw [Nat.zero_add,Nat.pow_one] at hx
    have hb : rootStart n 0+x-12=x := Nat.add_sub_cancel_left 12 x
    simp only [hb]
    rw [if_pos hx]
    rfl
  | 1,_ =>
    have hx : x<n^2 := hx
    have hb : rootStart n 1+x-12=n+x := by
      simp only [rootStart,Nat.zero_add,Nat.pow_one]
      omega
    simp only [hb]
    rw [if_neg (by omega),if_pos (by omega),Nat.add_sub_cancel_left,Nat.pow_one]
    simp [indirLbn,rootStart]
  | 2,_ =>
    have hb : rootStart n 2+x-12=n+(n^2+x) := by
      simp only [rootStart,Nat.zero_add,Nat.pow_one,Nat.reduceAdd]
      omega
    simp only [hb]
    rw [if_neg (by omega),Nat.add_sub_cancel_left,if_neg (by omega),Nat.add_sub_cancel_left,
      if_pos hx]
    simp [indirLbn,rootStart]

theorem getlbns32_of_getlbns (h1 : 1≤n) (hn : n≤1024) (r : ℕ) (hr : r<3) (hx : x<n^(r+1)) :
    ∃ path,getlbns n (rootStart n r+x)=some (r,path) ∧
      getlbns32 n (rootStart n r+x : ℕ)=some (.path ((indirLbn n r,(r : ℤ))::
        path.map (Prod.map id (Nat.cast : ℕ → ℤ)))) := by
  refine ⟨_,getlbns_root r hr hx,?_⟩
  rw [getlbns32_data h1 hn hr hx,← lbnPath_eq h1,← indirLbn_eq hx]

end Bounds

section Calls

variable (g : Geometry) (env : Env)

theorem freeWhole_congr (level : ℕ) (call call' : Indirtrunc) (lbn last : ℤ) (bap : ℕ → ℤ) (k : ℕ)
    (h : ∀ i<k,∀ s l,call s (lbn+1-(i*g.nindir^level : ℕ)) (g.fsbtodb (bap i)) l=
      call' s (lbn+1-(i*g.nindir^level : ℕ)) (g.fsbtodb (bap i)) l) (r : Released) :
    freeWhole g level call lbn last bap k r=freeWhole g level call' lbn last bap k r := by
  induction k generalizing r with
  | zero => rfl
  | succ k ih =>
    have hrec := ih (fun i hi => h i (by omega))
    unfold freeWhole
    dsimp only
    rw [h k (Nat.lt_succ_self k),hrec]
    split
    · rfl
    split
    · rfl
    split
    · rw [hrec]
    · cases call' r.state (lbn+1-(k*g.nindir^level : ℕ)) (g.fsbtodb (bap k)) (-1) with
      | error x => rfl
      | ok q =>
        dsimp only
        rw [hrec]

/-- `ext2_indirtrunc` calls itself for the block of pointer `i` under the number of child `i` only.
-/
theorem indirtruncBody_congr (level : ℕ) (call call' : Indirtrunc) (s : State) (lbn lastbn dbn : ℤ)
    (h : ∀ s1 b,s.indirBuf env lbn dbn=some (s1,b) → ∀ i<g.nindir,∀ s' l,
      call s' (lbn+1-(i*g.nindir^level : ℕ)) (g.fsbtodb (b.ptrs i)) l=
        call' s' (lbn+1-(i*g.nindir^level : ℕ)) (g.fsbtodb (b.ptrs i)) l) :
    indirtruncBody g env level call s lbn lastbn dbn=
      indirtruncBody g env level call' s lbn lastbn dbn := by
  unfold indirtruncBody
  cases hbuf : s.indirBuf env lbn dbn with
  | none => rfl
  | some c =>
    obtain ⟨s1,b⟩ := c
    have hc := h s1 b hbuf
    dsimp only
    have hkept : 0≤lastbn → 0≤(if 0<lastbn then lastbn/((g.nindir^level : ℕ) : ℤ) else lastbn) := by
      intro h0
      split
      · exact Int.ediv_nonneg h0 (Int.natCast_nonneg _)
      · exact h0
    generalize (if 0<lastbn then lastbn/((g.nindir^level : ℕ) : ℤ) else lastbn)=last at hkept
    split
    · rfl
    next hbounds =>
    rw [freeWhole_congr g level call call' lbn last b.ptrs g.nindir hc]
    cases freeWhole g level call' lbn last b.ptrs g.nindir
        ⟨(s1.indirWrite env lbn last b).1,0,(s1.indirWrite env lbn last b).2⟩ with
    | error x => rfl
    | ok r =>
      dsimp only
      split
      · next hlast =>
        -- the block that is kept in part is child `last`
        have h0 := hkept hlast.2.1
        have hto : ((last.toNat : ℕ) : ℤ)=last := Int.toNat_of_nonneg h0
        have hlast := hc last.toNat (by omega) r.state (lastbn%((g.nindir^level : ℕ) : ℤ))
        rw [Nat.cast_mul,hto] at hlast
        rw [hlast]
      · rfl

end Calls

/-- The numbering of the blocks of a file with `n` pointers in an indirect block. -/
structure Numbered (n : ℕ) : Prop where
  direct : ∀ bn : ℕ,bn<12 → getlbns32 n bn=some (.path [])
  /-- The path has one pair more than levels; its indices are the digits of the block number past the
  first of the root. -/
  data : ∀ bn : ℕ,12≤bn → bn<12+n+n^2+n^3 → ∃ r<3,∃ a offs,
    getlbns32 n bn=some (.path a) ∧ a.length=r+2 ∧ offs.length=r+1 ∧ (∀ o ∈ offs,o<n) ∧
    a.map Prod.snd=(r::offs).map (Nat.cast : ℕ → ℤ) ∧
    bn=rootStart n r+Nat.ofDigits n offs.reverse
  efbig : ∀ bn : ℕ,12+n+n^2+n^3≤bn → bn<2^31 → getlbns32 n bn=some .efbig
  /-- The path to any data block under indirect block `q` of level `t` goes through its number, and
  the path to that number is what comes before it. -/
  indirect : ∀ r<3,∀ t ≤ r,∀ q<n^(r-t),∀ x,x/n^(t+1)=q → ∃ a,
    getlbns32 n (rootStart n r+x : ℕ)=some (.path a) ∧
    (a.map Prod.fst)[r-t+1]?=some (metaLbn n r t q) ∧
    getlbns32 n (metaLbn n r t q)=some (.path (a.take (r-t+1)))
  distinct : ∀ r<3,∀ t ≤ r,∀ q<n^(r-t),∀ r'<3,∀ t' ≤ r',∀ q'<n^(r'-t'),
    metaLbn n r t q=metaLbn n r' t' q' → r=r' ∧ t=t' ∧ q=q'
  /-- `indir_lbn` as `ext2_truncate` computes it. -/
  roots : indirLbn n 0=-12 ∧ indirLbn n 1=indirLbn n 0-n-1 ∧
    indirLbn n 2=indirLbn n 1-n*n-1 ∧ ∀ r,indirLbn n r=metaLbn n r r 0
  /-- A call depends on its own calls only at the numbers of the blocks that the pointers name. -/
  calls : ∀ g : Geometry,g.nindir=n → ∀ env r t q (call call' : Indirtrunc) s lastbn dbn,
    (∀ s1 b,s.indirBuf env (metaLbn n r (t+1) q) dbn=some (s1,b) → ∀ i<n,∀ s' l,
      call s' (metaLbn n r t (q*n+i)) (g.fsbtodb (b.ptrs i)) l=
        call' s' (metaLbn n r t (q*n+i)) (g.fsbtodb (b.ptrs i)) l) →
    indirtruncBody g env (t+1) call s (metaLbn n r (t+1) q) lastbn dbn=
      indirtruncBody g env (t+1) call' s (metaLbn n r (t+1) q) lastbn dbn

/-- The paths, numbers and arithmetic of `ext2_getlbns` for every size of block, and the same
numbers in `ext2_truncate`. -/
theorem getlbns_numbered (n : ℕ) (h1 : 256≤n) (h2 : n≤1024) : Numbered n where
  direct bn h := getlbns32_direct bn h
  data bn hlo hhi := by
    obtain ⟨r,hr,x,hx,rfl⟩ := data_of_lt hlo hhi
    refine ⟨r,hr,_,offsets n x (r+1),getlbns32_data (by omega) h2 hr hx,?_,?_,
      offsets_lt n x (r+1) (by omega),?_,?_⟩
    · rw [List.length_cons,descend_length]
    · have hlen := congrArg List.length (descend_offsets n r x (r+1))
      rw [List.length_map,List.length_map,descend_length] at hlen
      exact hlen.symm
    · rw [List.map_cons,List.map_cons,descend_offsets]
    · rw [ofDigits_offsets,Nat.mod_eq_of_lt hx]
  efbig bn h hlt := getlbns32_efbig h2 h (by omega)
  indirect r hr t ht q hq x hxq := by
    have hx : x<n^(r+1) := by
      have hlt : x/n^(t+1)<n^(r-t) := hxq ▸ hq
      rw [Nat.div_lt_iff_lt_mul (Nat.pow_pos (by omega)),← Nat.pow_add,
        show r-t+(t+1)=r+1 by omega] at hlt
      exact hlt
    have hfirst : (q*n^(t+1)+t)/n^(t+1)=q := by
      rw [Nat.mul_comm,Nat.mul_add_div (Nat.pow_pos (by omega)),
        Nat.div_eq_of_lt (level_lt_pow (by omega) (by omega)),Nat.add_zero]
    refine ⟨_,getlbns32_data (by omega) h2 hr hx,?_,?_⟩
    · have hget := descend_get n r x (show t < r+1 by omega)
      rw [Nat.add_sub_cancel] at hget
      rw [List.map_cons,List.getElem?_cons_succ,List.getElem?_map,hget,hxq]
      rfl
    · have hsame := descend_take_congr n r (t := t) (r+1) (hfirst.trans hxq.symm)
      rw [show r+1-(t+1)=r-t by omega] at hsame
      rw [getlbns32_meta (by omega) h2 hr ht hq,List.take_succ_cons,hsame]
  distinct r hr t ht q hq r' hr' t' ht' q' hq' h :=
    metaLbn_inj (by omega) h2 hr ht hq hr' ht' hq' h
  roots := by
    refine ⟨rfl,?_,?_,?_⟩
    · simp only [indirLbn,rootStart]
      push_cast
      ring
    · simp only [indirLbn,rootStart]
      push_cast
      ring
    · intro r
      simp [indirLbn,metaLbn]
  calls g hg env r t q call call' s lastbn dbn h := by
    apply indirtruncBody_congr
    intro s1 b hbuf i hi s' l
    rw [hg] at hi ⊢
    rw [← metaLbn_child]
    exact h s1 b hbuf i hi s' l

theorem getlbns_numbered_page : Numbered 1024 := getlbns_numbered 1024 (by decide) le_rfl

end Ext2fsX.Blocks
