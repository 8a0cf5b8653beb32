import Mathlib.Algebra.Ring.Nat
import Mathlib.Tactic.Common

namespace Ext2fsX.Balloc

variable (bits : ℕ → Bool)

def ffz (base : ℕ) : ℕ → ℕ
  | 0 => 0
  | n+1 => if bits base then ffz (base+1) n+1 else 0

/-- Whole 64-bit words from word `p` on, then the `rest` bits of the last word. -/
def findFirstZeroWords (rest : ℕ) : ℕ → ℕ → ℕ
  | 0,p => if rest=0 then 0 else ffz bits (64*p) rest
  | n+1,p =>
    if ffz bits (64*p) 64<64 then ffz bits (64*p) 64
    else 64+findFirstZeroWords rest n (p+1)

/-- `find_first_zero_bit(addr + p, size)`, `addr` a pointer to 64-bit words. -/
def findFirstZeroBit (p size : ℕ) : ℕ :=
  findFirstZeroWords bits (size%64) (size/64) p

/-- `find_next_zero_bit` of the 64-bit build. The size left is a `long` handed on as `unsigned
long`. -/
def findNextZeroBit (size offset : ℕ) : ℕ :=
  let p := offset/64
  let bit := offset%64
  let left := fun q => (size+2^64-64*q)%2^64
  if bit=0 then offset+findFirstZeroBit bits p (left p)
  else
    let set := ffz bits offset (64-bit)
    if set<64-bit then set+offset
    else offset+(64-bit)+findFirstZeroBit bits (p+1) (left (p+1))

def zeroByte (b : ℕ) : Bool := (List.range 8).all (fun i => !bits (8*b+i))

/-- `memscan(data + b, 0, n)`: the first zero byte, or one past the area. -/
def memscan (b : ℕ) : ℕ → ℕ
  | 0 => b
  | n+1 => if zeroByte bits b then b else memscan (b+1) n

variable (bits : ℕ → Bool)

theorem ffz_le (base n : ℕ) : ffz bits base n≤n := by
  induction n generalizing base with
  | zero => simp [ffz]
  | succ n ih =>
    have h := ih (base+1)
    unfold ffz
    split <;> omega

theorem ffz_clear (base n : ℕ) (h : ffz bits base n<n) : bits (base+ffz bits base n)=false := by
  induction n generalizing base with
  | zero => omega
  | succ n ih =>
    unfold ffz at h ⊢
    cases hb : bits base with
    | false => simp [hb]
    | true =>
      simp only [hb,if_true] at h ⊢
      have hr := ih (base+1) (by omega)
      rw [show base+(ffz bits (base+1) n+1)=base+1+ffz bits (base+1) n by omega]
      exact hr

theorem ffz_lt (base n q : ℕ) (h1 : base≤q) (h2 : q<base+n) (hq : bits q=false) : ffz bits base n<n := by
  induction n generalizing base with
  | zero => omega
  | succ n ih =>
    unfold ffz
    cases hb : bits base with
    | false => simp
    | true =>
      have hne : base≠q := by
        rintro rfl
        rw [hb] at hq
        cases hq
      have hr := ih (base+1) (by omega) (by omega)
      simp only [if_true]
      omega

theorem ffz_set (base n i : ℕ) (h : i<ffz bits base n) : bits (base+i)=true := by
  induction n generalizing base i with
  | zero => cases h
  | succ n ih =>
    unfold ffz at h
    cases hb : bits base with
    | false => simp [hb] at h
    | true =>
      cases i with
      | zero => exact hb
      | succ i =>
        simp only [hb,if_true] at h
        rw [show base+(i+1)=base+1+i by omega]
        exact ih (base+1) i (by omega)

theorem ffz_le_clear (base n q : ℕ) (hb : base≤q) (hq : bits q=false) : base+ffz bits base n≤q := by
  by_contra hn
  have hs := ffz_set bits base n (q-base) (by omega)
  rw [show base+(q-base)=q by omega,hq] at hs
  cases hs

theorem findFirstZeroWords_clear (rest n p : ℕ) (h : findFirstZeroWords bits rest n p<64*n+rest) :
    bits (64*p+findFirstZeroWords bits rest n p)=false := by
  induction n generalizing p with
  | zero =>
    unfold findFirstZeroWords at h ⊢
    by_cases hr : rest=0
    · simp [hr] at h
    · rw [if_neg hr] at h ⊢
      exact ffz_clear bits _ rest (by omega)
  | succ n ih =>
    unfold findFirstZeroWords at h ⊢
    split_ifs at h ⊢ with hw
    · exact ffz_clear bits _ 64 hw
    · have ht := ih (p+1) (by omega)
      rw [show 64*p+(64+findFirstZeroWords bits rest n (p+1))=
        64*(p+1)+findFirstZeroWords bits rest n (p+1) by omega]
      exact ht

theorem findFirstZeroBit_clear (p size : ℕ) (h : findFirstZeroBit bits p size < size) :
    bits (64*p+findFirstZeroBit bits p size)=false := by
  apply findFirstZeroWords_clear
  unfold findFirstZeroBit at h
  omega

theorem findFirstZeroWords_lt (rest n p q : ℕ) (h1 : 64*p≤q)
    (h2 : q<64*p+(64*n+rest)) (hq : bits q=false) :
    findFirstZeroWords bits rest n p<64*n+rest := by
  induction n generalizing p with
  | zero =>
    have hf := ffz_lt bits (64*p) rest q h1 (by omega) hq
    unfold findFirstZeroWords
    rw [if_neg (by omega)]
    omega
  | succ n ih =>
    unfold findFirstZeroWords
    by_cases hw : ffz bits (64*p) 64<64
    · rw [if_pos hw]
      omega
    have hlater : 64*(p+1)≤q := by
      by_contra hn
      exact hw (ffz_lt bits (64*p) 64 q h1 (by omega) hq)
    have hr := ih (p+1) hlater (by omega)
    rw [if_neg hw]
    omega

theorem findFirstZeroBit_lt (size q : ℕ) (hs : q < size) (hq : bits q=false) : findFirstZeroBit bits 0 size < size := by
  have h := findFirstZeroWords_lt bits (size%64) (size/64) 0 q (by omega) (by omega) hq
  unfold findFirstZeroBit
  omega

theorem findFirstZeroWords_le (rest n p : ℕ) : findFirstZeroWords bits rest n p≤64*n+rest := by
  induction n generalizing p with
  | zero =>
    have h := ffz_le bits (64*p) rest
    unfold findFirstZeroWords
    split <;> omega
  | succ n ih =>
    have h := ih (p+1)
    unfold findFirstZeroWords
    split <;> omega

theorem findFirstZeroBit_le (p size : ℕ) : findFirstZeroBit bits p size ≤ size := by
  have h := findFirstZeroWords_le bits (size%64) (size/64) p
  unfold findFirstZeroBit
  omega

theorem findFirstZeroWords_stop (rest n p q : ℕ) (hp : 64*p≤q) (hn : q<64*(p+n))
    (hq : bits q=false) : 64*p+findFirstZeroWords bits rest n p≤q := by
  induction n generalizing p with
  | zero => omega
  | succ n ih =>
    have hw := ffz_le_clear bits (64*p) 64 q hp hq
    unfold findFirstZeroWords
    by_cases hfull : ffz bits (64*p) 64<64
    · rw [if_pos hfull]
      exact hw
    · have h := ih (p+1) (by omega) (by omega)
      rw [if_neg hfull]
      omega

theorem findFirstZeroWords_set (rest n p i : ℕ)
    (h : i<findFirstZeroWords bits rest n p) : bits (64*p+i)=true := by
  induction n generalizing p i with
  | zero =>
    unfold findFirstZeroWords at h
    split at h
    · cases h
    · exact ffz_set bits _ rest i h
  | succ n ih =>
    unfold findFirstZeroWords at h
    by_cases hw : ffz bits (64*p) 64<64
    · rw [if_pos hw] at h
      exact ffz_set bits _ 64 i h
    rw [if_neg hw] at h
    by_cases hi : i<64
    · exact ffz_set bits _ 64 i (by omega)
    · have hr := ih (p+1) (i-64) (by omega)
      rw [show 64*(p+1)+(i-64)=64*p+i by omega] at hr
      exact hr

theorem left_eq {size q : ℕ} (hs : size<2^63) (hq : 64*q ≤ size) :
    (size+2^64-64*q)%2^64=size-64*q := by
  rw [show size+2^64-64*q=2^64+(size-64*q) by omega,Nat.add_mod_left]
  exact Nat.mod_eq_of_lt (by omega)

/-- A result below the size is a clear bit not before the offset. -/
theorem findNextZeroBit_clear (size offset : ℕ) (hs : 64∣size) (hb : size<2^63)
    (ho : offset ≤ size) (h : findNextZeroBit bits size offset < size) :
    bits (findNextZeroBit bits size offset)=false := by
  obtain ⟨w,rfl⟩ := hs
  have left (q : ℕ) (hq : q≤w) : (64*w+2^64-64*q)%2^64=64*w-64*q := left_eq hb (by omega)
  unfold findNextZeroBit at h ⊢
  by_cases hz : offset%64=0
  · simp only [hz,if_true,left (offset/64) (by omega)] at h ⊢
    have hc := findFirstZeroBit_clear bits (offset/64) (64*w-64*(offset/64)) (by omega)
    have he (r : ℕ) : offset+r=64*(offset/64)+r := by omega
    rw [he]
    exact hc
  · simp only [hz,if_false] at h ⊢
    by_cases hw : ffz bits offset (64-offset%64)<64-offset%64
    · rw [if_pos hw,Nat.add_comm]
      exact ffz_clear bits _ _ hw
    · rw [if_neg hw,left (offset/64+1) (by omega)] at h ⊢
      have hc := findFirstZeroBit_clear bits (offset/64+1) (64*w-64*(offset/64+1)) (by omega)
      have he (r : ℕ) : offset+(64-offset%64)+r=64*(offset/64+1)+r := by omega
      rw [he]
      exact hc

theorem findNextZeroBit_le (size w : ℕ) (hs : size<2^63) (hw : 64*w ≤ size) :
    findNextZeroBit bits size (64*w) ≤ size := by
  have h := findFirstZeroBit_le bits w (size-64*w)
  simp only [findNextZeroBit,Nat.mul_mod_right,if_true,
    Nat.mul_div_cancel_left w (by decide : 0<64),left_eq hs hw]
  omega

theorem findNextZeroBit_ge (size offset : ℕ) : offset≤findNextZeroBit bits size offset := by
  unfold findNextZeroBit
  dsimp only
  split_ifs <;> omega

/-- Up to the end of its word `find_next_zero_bit` is one search of that word. -/
theorem findNextZeroBit_near (j : ℕ) :
    findNextZeroBit bits ((j+63)/64*64) j=j+ffz bits j ((j+63)/64*64-j) := by
  have left (q : ℕ) (hq : 64*q=(j+63)/64*64) : ((j+63)/64*64+2^64-64*q)%2^64=0 := by
    rw [hq,Nat.add_sub_cancel_left,Nat.mod_self]
  have none (p : ℕ) : findFirstZeroBit bits p 0=0 := rfl
  unfold findNextZeroBit
  dsimp only
  by_cases hz : j%64=0
  · rw [if_pos hz,left (j/64) (by omega),none,show (j+63)/64*64-j=0 by omega]
    rfl
  have hle := ffz_le bits j (64-j%64)
  rw [if_neg hz,show (j+63)/64*64-j=64-j%64 by omega]
  split_ifs with hw
  · omega
  · rw [left (j/64+1) (by omega),none]
    omega

theorem findNextZeroBit_word (j : ℕ) : findNextZeroBit bits ((j+63)/64*64) j≤(j+63)/64*64 := by
  have hle := ffz_le bits j ((j+63)/64*64-j)
  rw [findNextZeroBit_near]
  omega

theorem zeroByte_clear (b i : ℕ) (h : zeroByte bits b=true) (hi : i<8) : bits (8*b+i)=false := by
  have hb := List.all_eq_true.mp h i (List.mem_range.mpr hi)
  simpa using hb

theorem memscan_le (b n : ℕ) : memscan bits b n≤b+n := by
  induction n generalizing b with
  | zero => simp [memscan]
  | succ n ih =>
    have h := ih (b+1)
    unfold memscan
    split <;> omega

theorem memscan_ge (b n : ℕ) : b ≤ memscan bits b n := by
  induction n generalizing b with
  | zero => exact Nat.le_refl b
  | succ n ih =>
    have h := ih (b+1)
    unfold memscan
    split <;> omega

theorem memscan_zero (b n : ℕ) (h : memscan bits b n<b+n) :
    zeroByte bits (memscan bits b n)=true := by
  induction n generalizing b with
  | zero => simp [memscan] at h
  | succ n ih =>
    unfold memscan at h ⊢
    split_ifs at h ⊢ with hb
    · exact hb
    · exact ih (b+1) (by omega)

end Ext2fsX.Balloc
