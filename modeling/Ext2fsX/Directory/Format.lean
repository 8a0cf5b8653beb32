import Ext2fsX.Framework.Bytes
import Ext2fsX.Framework.Tiling

namespace Ext2fsX.Directory

open Framework

/-- What the directory code reads of the mount and of `dirchk`. `dirIndex`: a directory that
outgrows one block is indexed. -/
structure Config where
  blocksizeBits : ℕ
  inodesCount : ℕ
  dirchk : Bool
  rdonly : Bool
  dirIndex : Bool
  bits_ge : 10≤blocksizeBits
  bits_le : blocksizeBits≤15
  inodes_lt : inodesCount<4294967296

def smallConfig : Config := ⟨10,100,false,false,false,by decide,by decide,by decide⟩

/-- `s_blocksize`, which is also `DIRBLKSIZ` and `f_iosize`. -/
def Config.blocksize (cfg : Config) : ℕ := 2^cfg.blocksizeBits

namespace Config

variable (cfg : Config)

theorem blocksize_bounds : 1024 ≤ cfg.blocksize ∧ cfg.blocksize<65536 := by
  constructor
  · exact Nat.pow_le_pow_right (n := 2) (by decide) cfg.bits_ge
  · have h := Nat.pow_le_pow_right (n := 2) (by decide) cfg.bits_le
    exact Nat.lt_of_le_of_lt h (by decide)

theorem four_dvd_blocksize : 4 ∣ cfg.blocksize :=
  Nat.pow_dvd_pow 2 (Nat.le_trans (by decide) cfg.bits_ge : 2 ≤ cfg.blocksizeBits)

end Config

def dirRecLen (nameLen : ℕ) : ℕ := (nameLen+8+3)/4*4

theorem dirRecLen_one : dirRecLen 1=12 := rfl

theorem dirRecLen_bounds (n : ℕ) : n+8≤dirRecLen n ∧ dirRecLen n≤n+11 ∧ dirRecLen n%4=0 := by
  unfold dirRecLen
  omega

/-- `struct ext2_dir_entry_2`; the name has its own length. -/
structure Record where
  inode : ℕ
  recLen : ℕ
  fileType : UInt8
  name : List UInt8
  deriving DecidableEq

namespace Record

def live (r : Record) : Bool := r.inode≠0

def used (r : Record) : ℕ := if r.live then dirRecLen r.name.length else 0

def free (r : Record) : ℕ := r.recLen-r.used

/-- The record passes `ext2_dirbadentry_locked` at offset `o`, and if it is live has a name. -/
structure Ok (cfg : Config) (o : ℕ) (r : Record) : Prop where
  min : dirRecLen 1 ≤ r.recLen
  four : r.recLen%4=0
  fits : dirRecLen r.name.length ≤ r.recLen
  block : o%cfg.blocksize+r.recLen ≤ cfg.blocksize
  inode : r.inode ≤ cfg.inodesCount
  named : r.live=true → r.name≠[]

instance (cfg : Config) (o : ℕ) (r : Record) : Decidable (Ok cfg o r) :=
  decidable_of_iff (dirRecLen 1 ≤ r.recLen ∧ r.recLen%4=0 ∧ dirRecLen r.name.length ≤ r.recLen ∧
    o%cfg.blocksize+r.recLen ≤ cfg.blocksize ∧ r.inode ≤ cfg.inodesCount ∧
    (r.live=true → r.name≠[]))
    ⟨fun ⟨a,b,c,d,e,f⟩ => ⟨a,b,c,d,e,f⟩,fun ⟨a,b,c,d,e,f⟩ => ⟨a,b,c,d,e,f⟩⟩

theorem Ok.pos {cfg : Config} {o : ℕ} {r : Record} (h : Ok cfg o r) : 0 < r.recLen :=
  Nat.lt_of_lt_of_le (by decide) h.min

theorem Ok.used_le {cfg : Config} {o : ℕ} {r : Record} (h : Ok cfg o r) : r.used ≤ r.recLen := by
  unfold used
  split
  · exact h.fits
  · exact Nat.zero_le _

end Record

def readRecord (m : Bytes) (o : ℕ) : Record where
  inode := m.le32 o
  recLen := m.le16 (o+4)
  fileType := m (o+7)
  name := m.slice (o+8) (m (o+6)).toNat

/-- The first `dirRecLen` bytes as `ext2_direnter` makes them; behind the name is what the stack
held. -/
def Record.image (r : Record) (junk : Bytes) : List UInt8 :=
  Bytes.enc32 r.inode++Bytes.enc16 r.recLen++[.ofNat r.name.length,r.fileType]++r.name++
    junk.slice 0 (dirRecLen r.name.length-8-r.name.length)

theorem Record.image_length (r : Record) (junk : Bytes) :
    (r.image junk).length=dirRecLen r.name.length := by
  have := dirRecLen_bounds r.name.length
  simp only [image,List.length_append,Bytes.enc32_length,Bytes.enc16_length,Bytes.slice_length,
    List.length_cons,List.length_nil]
  omega

theorem readRecord_congr {m m' : Bytes} {o : ℕ}
    (h : Bytes.Agree m m' o (o+8+(readRecord m o).name.length)) :
    readRecord m' o=readRecord m o := by
  have hn : (readRecord m o).name.length=(m (o+6)).toNat := by simp [readRecord]
  unfold readRecord
  rw [h.le32 (by omega) (by omega),h.le16 (by omega) (by omega),h (o+7) (by omega) (by omega),
    h (o+6) (by omega) (by omega),h.slice (by omega) (by omega)]

variable (m : Bytes)

theorem readRecord_name_lt (o : ℕ) : (readRecord m o).name.length<256 := by
  simpa [readRecord] using (m (o+6)).toNat_lt

theorem readRecord_moved {m m' : Bytes} {o o' n : ℕ} (hc : ∀ i<n,m' (o'+i)=m (o+i))
    (h : 8+(readRecord m o).name.length≤n) : readRecord m' o'=readRecord m o := by
  have hn : (readRecord m o).name.length=(m (o+6)).toNat := by simp [readRecord]
  have h0 : m' o'=m o := hc 0 (by omega)
  unfold readRecord Bytes.le32 Bytes.le16
  rw [hc 6 (by omega),hc 7 (by omega),hc 4 (by omega),hc (4+1) (by omega),h0,hc 1 (by omega),
    hc 2 (by omega),hc (2+1) (by omega)]
  congr 1
  apply List.map_congr_left
  intro i hi
  have hlt := List.mem_range.mp hi
  simp only [Nat.add_assoc]
  exact hc (8+i) (by omega)

theorem readRecord_copy (src dst n : ℕ) (h : 8+(readRecord m src).name.length≤n) :
    readRecord (m.copy src dst n) dst=readRecord m src :=
  readRecord_moved (m.copy_at src dst n) h

/-- A new length, as `ep->rec_len = cpu_to_le16(v)` writes it. -/
theorem readRecord_store_recLen (o v : ℕ) (hv : v<65536) :
    readRecord (m.store (o+4) (Bytes.enc16 v)) o={ readRecord m o with recLen := v } := by
  have hlo : Bytes.Agree m (m.store (o+4) (Bytes.enc16 v)) o (o+4) :=
    m.store_agree _ _ (.inl (Nat.le_refl _))
  have hhi (e : ℕ) : Bytes.Agree m (m.store (o+4) (Bytes.enc16 v)) (o+6) e :=
    m.store_agree _ _ (.inr (by simp))
  have h16 := m.store_le16 (o+4) 0 v (Bytes.enc16 v) rfl (by simp)
  rw [Nat.mod_eq_of_lt hv,Nat.add_zero] at h16
  unfold readRecord
  rw [hlo.le32 (by omega) (by omega),h16,hhi (o+8) (o+7) (by omega) (by omega),
    hhi (o+8) (o+6) (by omega) (by omega),
    (hhi (o+8+(m (o+6)).toNat)).slice (by omega) (by omega)]

theorem readRecord_store_inode (o v : ℕ) (hv : v<4294967296) :
    readRecord (m.store o (Bytes.enc32 v)) o={ readRecord m o with inode := v } := by
  have hhi (e : ℕ) : Bytes.Agree m (m.store o (Bytes.enc32 v)) (o+4) e :=
    m.store_agree _ _ (.inr (by simp))
  have h32 := m.store_le32 o 0 v (Bytes.enc32 v) rfl (by simp)
  rw [Nat.mod_eq_of_lt hv,Nat.add_zero] at h32
  unfold readRecord
  rw [h32,(hhi (o+6)).le16 (by omega) (by omega),hhi (o+8) (o+7) (by omega) (by omega),
    hhi (o+8) (o+6) (by omega) (by omega),
    (hhi (o+8+(m (o+6)).toNat)).slice (by omega) (by omega)]

theorem readRecord_store_fileType (o : ℕ) (v : UInt8) :
    readRecord (m.store (o+7) [v]) o={ readRecord m o with fileType := v } := by
  have hlo : Bytes.Agree m (m.store (o+7) [v]) o (o+7) := m.store_agree _ _ (.inl (Nat.le_refl _))
  have hhi (e : ℕ) : Bytes.Agree m (m.store (o+7) [v]) (o+8) e := m.store_agree _ _ (.inr (by simp))
  have h7 : m.store (o+7) [v] (o+7)=v := m.store_at (o+7) [v] 0 (by simp)
  unfold readRecord
  rw [hlo.le32 (by omega) (by omega),hlo.le16 (by omega) (by omega),h7,
    hlo (o+6) (by omega) (by omega),(hhi (o+8+(m (o+6)).toNat)).slice (by omega) (by omega)]

theorem readRecord_store_image (o : ℕ) (r : Record) (junk : Bytes)
    (hi : r.inode<4294967296) (hl : r.recLen<65536) (hn : r.name.length<256) :
    readRecord (m.store o (r.image junk)) o=r := by
  have hb := dirRecLen_bounds r.name.length
  have hlen := r.image_length junk
  have h32 := m.store_le32 o 0 r.inode (r.image junk)
    (by simp [Record.image,Bytes.enc32,Bytes.enc16])
    (by omega)
  have h16 := m.store_le16 o 4 r.recLen (r.image junk)
    (by simp [Record.image,Bytes.enc32,Bytes.enc16]) (by omega)
  have h6 := m.store_at o (r.image junk) 6 (by omega)
  have h7 := m.store_at o (r.image junk) 7 (by omega)
  have hs := m.store_slice o 8 r.name.length (r.image junk) (by omega)
  have e6 : (r.image junk).getD 6 0=.ofNat r.name.length := by
    simp [Record.image,Bytes.enc32,Bytes.enc16]
  have e7 : (r.image junk).getD 7 0=r.fileType := by simp [Record.image,Bytes.enc32,Bytes.enc16]
  have e8 : ((r.image junk).drop 8).take r.name.length=r.name := by
    simp [Record.image,Bytes.enc32,Bytes.enc16]
  have htoNat : (UInt8.ofNat r.name.length).toNat=r.name.length := by
    exact Nat.mod_eq_of_lt hn
  rw [Nat.mod_eq_of_lt hi,Nat.add_zero] at h32
  rw [Nat.mod_eq_of_lt hl] at h16
  unfold readRecord
  rw [h32,h16,h7,e7,h6,e6,htoNat,hs,e8]

end Ext2fsX.Directory
