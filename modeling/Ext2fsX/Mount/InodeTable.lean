import Ext2fsX.Mount.Geometry
import Mathlib.Tactic.Ring

namespace Ext2fsX.Mount

/-- A block, read into a buffer of one block, and an offset in that buffer. -/
structure Slot where
  block : ℕ
  offset : ℕ
  deriving DecidableEq

namespace Fs

variable (fs : Fs) (x : ℕ)

def inoToCg : ℕ := (x-1)/fs.ipg

def inoToFsba : ℕ := fs.table (fs.inoToCg x)+(x-1)%fs.ipg/fs.ipb

def inoToFsbo : ℕ := (x-1)%fs.ipb

def slotOf (size x : ℕ) : Slot := ⟨fs.inoToFsba x,size*fs.inoToFsbo x⟩

/-- `ext2_vget_internal` multiplies by `EXT2_INODE_SIZE_GET(fs)`. -/
def vgetSlot : Slot := fs.slotOf fs.isize x

/-- `ext2_update` multiplies by `EXT2_INODE_SIZE`. -/
def updateSlot : Slot := fs.slotOf 128 x

def reloadSlot : Slot := fs.slotOf 128 x

def byteOf (s : Slot) : ℕ := s.block*2^fs.fsbtodb*512+s.offset

def tableByte : ℕ := fs.table (fs.inoToCg x)*fs.blocksize+(x-1)%fs.ipg*fs.isize

def ValidIno : Prop := 1≤x ∧ x≤fs.ipg*fs.groupsCount

/-- The 128 bytes lie in the buffer and in the table of the group, and those of two inodes do not
overlap. -/
structure SlotsAgree : Prop where
  same : ∀ x,fs.ValidIno x → fs.vgetSlot x=fs.updateSlot x ∧ fs.vgetSlot x=fs.reloadSlot x
  place : ∀ x,fs.ValidIno x → fs.byteOf (fs.vgetSlot x)=fs.tableByte x
  buffer : ∀ x,fs.ValidIno x → (fs.vgetSlot x).offset+128≤fs.blocksize
  table : ∀ x,fs.ValidIno x → fs.tableByte x+128≤
    fs.table (fs.inoToCg x)*fs.blocksize+fs.ipg*fs.isize
  apart : ∀ x y,fs.ValidIno x → fs.ValidIno y → x<y →
    fs.tableByte x+128≤fs.tableByte y ∨ fs.tableByte y+128≤fs.tableByte x

def WholeBlocks : Prop :=
  fs.ipg*fs.groupsCount≤1 ∨ (fs.isize=128 ∧ (fs.groupsCount≤1 ∨ fs.ipb∣fs.ipg))

end Fs

structure Tables (fs : Fs) : Prop where
  size : fs.blocksize=fs.ipb*128
  sectors : 2^fs.fsbtodb*512=fs.blocksize
  ipb : 2≤fs.ipb
  isize : 128≤fs.isize
  itpg : fs.itpg=fs.ipg/fs.ipb
  order : ∀ g h,g<h → h<fs.groupsCount → fs.table g+fs.itpg<fs.table h

theorem tables_of_accepted {env : Env} {es : Superblock} {fs : Fs} (h : computeSbData env es=.ok fs)
    (hd : fs.oversized=false) : Tables fs := by
  have ha := computeSbData_accepted h
  obtain ⟨dirs,rfl⟩ := ha.geometry_eq
  have hb := ((geometry_defined env es).mp hd).1
  have hs := shiftKilo_eq env hb
  have hpos : 1≤2^es.logBlockSize.toNat := Nat.one_le_two_pow
  refine ⟨?_,?_,?_,?_,rfl,?_⟩
  · simp only [geometry,hs]
    omega
  · simp only [geometry,hs,pow_succ]
    omega
  · simp only [geometry,hs]
    omega
  · have hi := ha.inodes
    simp only [inodeFieldsOk,Bool.or_eq_true,Bool.and_eq_true,decide_eq_true_eq] at hi
    rcases hi with hr | hi
    · simp [geometry,hr]
    · exact hi.1.1.2
  · intro g k hgk hk
    obtain ⟨r,hr⟩ := ha.descriptors
    have hin := ((checkDescriptors_eq_some ..).mp hr).1
    have hg := hin g (lt_trans hgk hk)
    have hk := hin k hk
    simp only [inGroup,Bool.and_eq_true,decide_eq_true_eq,Nat.zero_add] at hg hk
    have hm : (g+1)*(geometry env es).bpg≤k*(geometry env es).bpg := Nat.mul_le_mul_right _ hgk
    rw [Nat.succ_mul] at hm
    exact lt_of_lt_of_le hg.2.2 (le_trans (by omega) hk.2.1)

namespace Tables

variable {fs : Fs}

theorem byteOf_eq (h : Tables fs) (s : Slot) : fs.byteOf s=s.block*fs.blocksize+s.offset := by
  unfold Fs.byteOf
  rw [Nat.mul_assoc,h.sectors]

theorem ipg_pos {x : ℕ} (hx : fs.ValidIno x) : 1≤fs.ipg := by
  apply Nat.pos_of_ne_zero
  intro h0
  have hv := hx
  unfold Fs.ValidIno at hv
  rw [h0,Nat.zero_mul] at hv
  omega

theorem group_lt {x : ℕ} (hx : fs.ValidIno x) : fs.inoToCg x<fs.groupsCount := by
  unfold Fs.inoToCg
  rw [Nat.div_lt_iff_lt_mul (ipg_pos hx),Nat.mul_comm]
  have hv := hx
  unfold Fs.ValidIno at hv
  omega

theorem offset_eq {x : ℕ} (hx : fs.ValidIno x) (hw : fs.groupsCount≤1 ∨ fs.ipb∣fs.ipg) :
    fs.inoToFsbo x=(x-1)%fs.ipg%fs.ipb := by
  unfold Fs.inoToFsbo
  rcases hw with hg | hd
  · have hlt := group_lt hx
    have h0 : fs.inoToCg x=0 := by omega
    rw [Nat.mod_eq_of_lt ((Nat.div_eq_zero_iff_lt (ipg_pos hx)).mp h0)]
  · rw [Nat.mod_mod_of_dvd _ hd]

section

variable (h : Tables fs)

include h

theorem place_eq {x : ℕ} (hx : fs.ValidIno x) (hs : fs.isize=128)
    (hw : fs.groupsCount≤1 ∨ fs.ipb∣fs.ipg) : fs.byteOf (fs.vgetSlot x)=fs.tableByte x := by
  rw [h.byteOf_eq]
  unfold Fs.vgetSlot Fs.slotOf Fs.inoToFsba Fs.tableByte
  rw [offset_eq hx hw,hs,h.size,Nat.add_mul]
  have hm := Nat.div_add_mod ((x-1)%fs.ipg) fs.ipb
  calc
    _ = fs.table (fs.inoToCg x)*(fs.ipb*128)+
        (fs.ipb*((x-1)%fs.ipg/fs.ipb)+(x-1)%fs.ipg%fs.ipb)*128 := by ring
    _ = _ := by rw [hm]

theorem apart_same {x y : ℕ} (hx : fs.ValidIno x) (hxy : x<y)
    (hg : fs.inoToCg x=fs.inoToCg y) : fs.tableByte x+128≤fs.tableByte y := by
  have hi := h.isize
  have hx1 := Nat.div_add_mod (x-1) fs.ipg
  have hy1 := Nat.div_add_mod (y-1) fs.ipg
  have hr : (x-1)%fs.ipg+1≤(y-1)%fs.ipg := by
    unfold Fs.inoToCg at hg
    rw [hg] at hx1
    have hv := hx.1
    omega
  have hm := Nat.mul_le_mul_right fs.isize hr
  rw [Nat.add_mul,Nat.one_mul] at hm
  unfold Fs.tableByte
  rw [hg]
  omega

theorem in_table {x : ℕ} (hx : fs.ValidIno x) :
    fs.tableByte x+128≤fs.table (fs.inoToCg x)*fs.blocksize+fs.ipg*fs.isize := by
  have hi := h.isize
  have hr : (x-1)%fs.ipg+1≤fs.ipg := Nat.mod_lt _ (ipg_pos hx)
  have hm := Nat.mul_le_mul_right fs.isize hr
  rw [Nat.add_mul,Nat.one_mul] at hm
  unfold Fs.tableByte
  omega

theorem apart_groups {x y : ℕ} (hx : fs.ValidIno x) (hy : fs.ValidIno y)
    (hs : fs.isize=128) (hd : fs.ipb∣fs.ipg) (hg : fs.inoToCg x<fs.inoToCg y) :
    fs.tableByte x+128≤fs.tableByte y := by
  have hin := h.in_table hx
  have ho := h.order _ _ hg (group_lt hy)
  have hb : fs.ipg*fs.isize=fs.itpg*fs.blocksize := by
    rw [hs,h.size,h.itpg,← Nat.mul_assoc,Nat.div_mul_cancel hd]
  have hm := Nat.mul_le_mul_right fs.blocksize (le_of_lt ho)
  rw [Nat.add_mul] at hm
  calc
    fs.tableByte x+128≤fs.table (fs.inoToCg x)*fs.blocksize+fs.itpg*fs.blocksize := hb ▸ hin
    _ ≤ fs.table (fs.inoToCg y)*fs.blocksize := hm
    _ ≤ fs.tableByte y := Nat.le_add_right _ _

theorem agree_of_whole (hs : fs.isize=128) (hw : fs.groupsCount≤1 ∨ fs.ipb∣fs.ipg) : fs.SlotsAgree where
  same x _ := by simp [Fs.vgetSlot,Fs.updateSlot,Fs.reloadSlot,hs]
  place x hx := h.place_eq hx hs hw
  buffer x _ := by
    have hlt : fs.inoToFsbo x+1≤fs.ipb := Nat.mod_lt _ (by have hp := h.ipb; omega)
    have hsz := h.size
    simp only [Fs.vgetSlot,Fs.slotOf,hs]
    omega
  table x hx := h.in_table hx
  apart x y hx hy hxy := by
    have hle : fs.inoToCg x≤fs.inoToCg y := Nat.div_le_div_right (by omega)
    rcases Nat.lt_or_eq_of_le hle with hg | hg
    · left
      have hgy := group_lt hy
      have hd : fs.ipb∣fs.ipg := hw.resolve_left (by omega)
      exact h.apart_groups hx hy hs hd hg
    · exact .inl (h.apart_same hx hxy hg)

theorem agree_of_single (hn : fs.ipg*fs.groupsCount≤1) : fs.SlotsAgree := by
  have one (x : ℕ) (hx : fs.ValidIno x) : x=1 := by
    unfold Fs.ValidIno at hx
    omega
  have hz (size x : ℕ) (hx : fs.ValidIno x) : (fs.slotOf size x).offset=0 := by
    simp [Fs.slotOf,Fs.inoToFsbo,one x hx]
  have hsz := h.size
  have hp := h.ipb
  refine ⟨fun x hx => ?_,fun x hx => ?_,fun x hx => ?_,fun x hx => h.in_table hx,?_⟩
  · have he (size : ℕ) : fs.slotOf size x=⟨fs.inoToFsba x,0⟩ := by
      rw [← hz size x hx]
      rfl
    simp [Fs.vgetSlot,Fs.updateSlot,Fs.reloadSlot,he]
  · rw [h.byteOf_eq]
    simp [Fs.vgetSlot,Fs.slotOf,Fs.inoToFsba,Fs.inoToFsbo,Fs.tableByte,one x hx]
  · rw [Fs.vgetSlot,hz fs.isize x hx]
    omega
  · intro x y hx hy hxy
    have hx := one x hx
    have hy := one y hy
    omega

theorem whole_of_agree (ha : fs.SlotsAgree) : fs.WholeBlocks := by
  by_cases hn : fs.ipg*fs.groupsCount≤1
  · exact .inl hn
  have hp := h.ipb
  have hi := h.isize
  have hv : fs.ValidIno 2 := ⟨by decide,by omega⟩
  have hone : fs.inoToFsbo 2=1 := Nat.mod_eq_of_lt (by omega)
  have hplace (x : ℕ) (hx : fs.ValidIno x) := ha.place x hx
  by_cases hg : fs.ipg=1
  · have hpl := hplace 2 hv
    rw [h.byteOf_eq] at hpl
    simp only [Fs.vgetSlot,Fs.slotOf,Fs.tableByte,Fs.inoToFsba,hone,hg,Nat.mod_one,Nat.zero_div,
      Nat.add_zero,Nat.zero_mul,Nat.mul_one] at hpl
    omega
  have hsize : fs.isize=128 := by
    have hsame := congrArg Slot.offset (ha.same 2 hv).1
    simp only [Fs.vgetSlot,Fs.updateSlot,Fs.slotOf,hone,Nat.mul_one] at hsame
    exact hsame
  refine .inr ⟨hsize,?_⟩
  by_cases hgc : fs.groupsCount≤1
  · exact .inl hgc
  right
  have hv2 : fs.ValidIno (fs.ipg+1) := by
    have hm := Nat.mul_le_mul_left fs.ipg (show 2≤fs.groupsCount by omega)
    exact ⟨by omega,by omega⟩
  have hpl := hplace _ hv2
  rw [h.byteOf_eq] at hpl
  simp only [Fs.vgetSlot,Fs.slotOf,Fs.tableByte,Fs.inoToFsba,Fs.inoToFsbo,hsize,
    Nat.add_sub_cancel,Nat.mod_self,Nat.zero_div,Nat.add_zero,Nat.zero_mul] at hpl
  exact Nat.dvd_of_mod_eq_zero (by omega)

end

end Tables

/-- The three places agree on all inodes exactly when these have 128 bytes and fill whole blocks. -/
theorem inodeSlots_agree_iff (env : Env) (es : Superblock) (fs : Fs)
    (h : computeSbData env es=.ok fs) (hd : fs.oversized=false) :
    fs.SlotsAgree ↔ fs.WholeBlocks := by
  have ht := tables_of_accepted h hd
  constructor
  · exact ht.whole_of_agree
  · rintro (hn | ⟨hs,hw⟩)
    · exact ht.agree_of_single hn
    · exact ht.agree_of_whole hs hw

theorem inodeSlots_agree_iff_small :
    ∃ fs,computeSbData smallMount smallDisk=.ok fs ∧ fs.oversized=false ∧ fs.SlotsAgree := by
  have he : computeSbData smallMount smallDisk=
      .ok { geometry smallMount smallDisk with dircount := 2 } := rfl
  refine ⟨_,he,rfl,(inodeSlots_agree_iff _ _ _ he rfl).mpr (.inr ⟨rfl,.inl ?_⟩)⟩
  decide

def largeInodes : Superblock := { smallDisk with inodeSize := 256 }

/-- Inode 2 is written elsewhere than it is read, and inode 8 read from beyond its buffer. -/
theorem largeInodes_slots :
    ∃ fs,computeSbData smallMount largeInodes=.ok fs ∧ fs.oversized=false ∧ fs.ValidIno 8 ∧
      fs.vgetSlot 2=⟨5,256⟩ ∧ fs.updateSlot 2=⟨5,128⟩ ∧ fs.vgetSlot 8=⟨5,1792⟩ ∧
      fs.blocksize=1024 := by
  have he : computeSbData smallMount largeInodes=
      .ok { geometry smallMount largeInodes with dircount := 2 } := rfl
  exact ⟨_,he,rfl,⟨by decide,by decide⟩,by decide,by decide,by decide,rfl⟩

end Ext2fsX.Mount
