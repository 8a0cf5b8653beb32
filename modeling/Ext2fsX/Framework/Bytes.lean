import Mathlib.Data.List.GetD

namespace Ext2fsX.Framework

abbrev Bytes := ℕ → UInt8

namespace Bytes

def le16 (m : Bytes) (o : ℕ) : ℕ := (m o).toNat+256*(m (o+1)).toNat

def le32 (m : Bytes) (o : ℕ) : ℕ := m.le16 o+65536*m.le16 (o+2)

variable (m : Bytes)

theorem le16_lt (o : ℕ) : m.le16 o<65536 := by
  have h0 := (m o).toNat_lt
  have h1 := (m (o+1)).toNat_lt
  unfold le16
  omega

theorem le32_lt (o : ℕ) : m.le32 o<4294967296 := by
  have h0 := m.le16_lt o
  have h1 := m.le16_lt (o+2)
  unfold le32
  omega

def slice (m : Bytes) (o n : ℕ) : List UInt8 := (List.range n).map (fun i => m (o+i))

def enc16 (v : ℕ) : List UInt8 := [.ofNat v,.ofNat (v/256)]

def enc32 (v : ℕ) : List UInt8 := enc16 v++enc16 (v/65536)

def store (m : Bytes) (o : ℕ) (bs : List UInt8) : Bytes :=
  fun i => if o ≤ i ∧ i<o+bs.length then bs.getD (i-o) 0 else m i

/-- `bcopy`: the source is read before the destination is written. -/
def copy (m : Bytes) (src dst n : ℕ) : Bytes :=
  fun i => if dst ≤ i ∧ i<dst+n then m (src+(i-dst)) else m i

def Agree (m m' : Bytes) (lo hi : ℕ) : Prop := ∀ i,lo ≤ i → i<hi → m' i=m i

variable {m m' : Bytes} {lo hi : ℕ}

section

variable (h : Agree m m' lo hi)

include h

theorem Agree.mono {l u : ℕ} (hl : lo≤l) (hu : u≤hi) : Agree m m' l u :=
  fun i h1 h2 => h i (Nat.le_trans hl h1) (Nat.lt_of_lt_of_le h2 hu)

theorem Agree.trans {m'' : Bytes} (h' : Agree m' m'' lo hi) : Agree m m'' lo hi :=
  fun i h1 h2 => (h' i h1 h2).trans (h i h1 h2)

theorem Agree.le16 {o : ℕ} (hl : lo≤o) (hu : o+2≤hi) : m'.le16 o=m.le16 o := by
  unfold Bytes.le16
  rw [h o hl (by omega),h (o+1) (by omega) (by omega)]

theorem Agree.le32 {o : ℕ} (hl : lo≤o) (hu : o+4≤hi) : m'.le32 o=m.le32 o := by
  unfold Bytes.le32
  rw [h.le16 hl (by omega),h.le16 (by omega) (by omega)]

theorem Agree.slice {o n : ℕ} (hl : lo≤o) (hu : o+n≤hi) : m'.slice o n=m.slice o n := by
  apply List.map_congr_left
  intro i hi
  have hlt := List.mem_range.mp hi
  exact h (o+i) (by omega) (by omega)

end

@[simp] theorem slice_length (m : Bytes) (o n : ℕ) : (m.slice o n).length=n := by simp [slice]

theorem store_agree (m : Bytes) (o : ℕ) (bs : List UInt8) (h : hi≤o ∨ o+bs.length≤lo) :
    Agree m (m.store o bs) lo hi := by
  intro i h1 h2
  apply if_neg
  omega

theorem copy_agree (m : Bytes) (src dst n : ℕ) (h : hi≤dst ∨ dst+n≤lo) :
    Agree m (m.copy src dst n) lo hi := by
  intro i h1 h2
  apply if_neg
  omega

theorem copy_at (m : Bytes) (src dst n i : ℕ) (h : i<n) : m.copy src dst n (dst+i)=m (src+i) := by
  unfold copy
  rw [if_pos (by omega),Nat.add_sub_cancel_left]

theorem store_at (m : Bytes) (o : ℕ) (bs : List UInt8) (i : ℕ) (h : i<bs.length) :
    m.store o bs (o+i)=bs.getD i 0 := by
  unfold store
  rw [if_pos (by omega),Nat.add_sub_cancel_left]

theorem store_slice (m : Bytes) (o k n : ℕ) (bs : List UInt8) (h : k+n≤bs.length) :
    (m.store o bs).slice (o+k) n=(bs.drop k).take n := by
  apply List.ext_getElem
  · simp
    omega
  · intro i h1 h2
    have hi : i<n := by simpa using h1
    simp only [slice,List.getElem_map,List.getElem_range,List.getElem_take,List.getElem_drop]
    rw [Nat.add_assoc,store_at m o bs (k+i) (by omega),List.getD_eq_getElem _ _ (by omega)]

@[simp] theorem enc16_length (v : ℕ) : (enc16 v).length=2 := rfl

@[simp] theorem enc32_length (v : ℕ) : (enc32 v).length=4 := rfl

theorem le16_of_bytes (o v : ℕ) (h0 : m o=.ofNat v) (h1 : m (o+1)=.ofNat (v/256)) :
    m.le16 o=v%65536 := by
  unfold le16
  rw [h0,h1,UInt8.toNat_ofNat',UInt8.toNat_ofNat']
  omega

/-- A 16-bit field reads back as what was stored, cut off to its width. -/
theorem store_le16 (m : Bytes) (o k v : ℕ) (bs : List UInt8) (h : (bs.drop k).take 2=enc16 v)
    (hk : k+2≤bs.length) :
    (m.store o bs).le16 (o+k)=v%65536 := by
  have hs := m.store_slice o k 2 bs hk
  rw [h] at hs
  have h0 : (m.store o bs) (o+k)=.ofNat v := by simpa [slice,enc16] using congrArg (·.getD 0 0) hs
  have h1 : (m.store o bs) (o+k+1)=.ofNat (v/256) := by
    simpa [slice,enc16,List.range_succ] using congrArg (·.getD 1 0) hs
  exact le16_of_bytes _ _ h0 h1

theorem store_le32 (m : Bytes) (o k v : ℕ) (bs : List UInt8) (h : (bs.drop k).take 4=enc32 v)
    (hk : k+4≤bs.length) :
    (m.store o bs).le32 (o+k)=v%4294967296 := by
  have hlo : (bs.drop k).take 2=enc16 v := by
    have := congrArg (List.take 2) h
    simpa [List.take_take,enc32,enc16] using this
  have hhi : (bs.drop (k+2)).take 2=enc16 (v/65536) := by
    have := congrArg (List.drop 2) h
    simpa [List.drop_take,List.drop_drop,enc32,enc16] using this
  unfold le32
  rw [m.store_le16 o k v bs hlo (by omega),Nat.add_assoc,
    m.store_le16 o (k+2) (v/65536) bs hhi (by omega)]
  omega

end Bytes

end Ext2fsX.Framework
