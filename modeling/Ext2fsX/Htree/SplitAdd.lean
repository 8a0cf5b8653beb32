import Ext2fsX.Htree.Leaves

namespace Ext2fsX.Htree

open Framework Directory Record

variable {cfg : Config} {h : Hashing} {m : Bytes} {rs : List Record} {d : Dentry}

structure SplitAdded where
  lower : Bytes
  upper : Bytes
  key : ℕ

def splitAdd (cfg : Config) (h : Hashing) (data1 data2 : Bytes) (d : Dentry) : SplitAdded :=
  let s := doSplit cfg h data1 data2
  let p := s.side (h.hash d.name.bytes)
  let m := writeAll p.1 (addWrites p.1 p.2 d)
  if s.hash2 ≤ h.hash d.name.bytes then ⟨s.data1,m,s.key⟩ else ⟨m,s.data2,s.key⟩

theorem entriesOf_perm {xs ys : List Record} (hp : xs.Perm ys) :
    (entriesOf xs).Perm (entriesOf ys) := (hp.filter _).map _

theorem entriesOf_fillLast (n : ℕ) (qs : List Record) : entriesOf (fillLast n qs)=entriesOf qs := by
  rw [← entriesOf_packed,packed_fillLast,entriesOf_packed]

variable {qs : List Record}

theorem uniform_fillLast {len n : ℕ} (hqs : ∀ r∈qs,r.live=true ∧ r.recLen=dirRecLen r.name.length)
    (hlen : ∀ r∈qs,dirRecLen r.name.length=len) (hn : total recLen qs≤n) :
    Uniform len (fillLast n qs) := by
  rcases List.eq_nil_or_concat qs with rfl | ⟨xs,r,rfl⟩
  · exact nofun
  rw [List.concat_eq_append] at hqs hlen hn ⊢
  rw [fillLast_concat]
  rw [total_append,total_cons,total_nil] at hn
  have hr := hlen r (by simp)
  refine uniform_append.mpr ⟨?_,uniform_cons.mpr ⟨⟨?_,fun _ => hr⟩,nofun⟩⟩
  · intro q hq
    have hq' : q∈xs++[r] := List.mem_append_left _ hq
    exact ⟨Nat.le_of_eq ((hqs q hq').2.trans (hlen q hq')).symm,fun _ => hlen q hq'⟩
  · have := (hqs r (by simp)).2
    dsimp only
    omega

theorem Side.other {p : Bytes × ℕ} {len : ℕ} (hp : Side cfg p qs) (hne : qs≠[])
    (hlen : ∀ r∈qs,dirRecLen r.name.length=len) :
    ∃ rs',Leaf cfg p.1 rs' ∧ Uniform len rs' ∧ entriesOf rs'=entriesOf qs :=
  ⟨_,hp.leaf hne,uniform_fillLast hp.live hlen hp.fits,entriesOf_fillLast _ _⟩

theorem Side.add {p : Bytes × ℕ} (hp : Side cfg p qs) (hne : qs≠[]) (hd : d.Valid cfg)
    (hlen : ∀ r∈qs,dirRecLen r.name.length=d.reclen)
    (hroom : total recLen qs+d.reclen ≤ cfg.blocksize) :
    ∃ rs',Leaf cfg (writeAll p.1 (addWrites p.1 p.2 d)) rs' ∧ Uniform d.reclen rs' ∧
      entriesOf rs'=entriesOf qs++[(d.name.bytes,d.ino)] := by
  have hleaf := hp.leaf hne
  have huni := uniform_fillLast hp.live hlen hp.fits
  have hspace := ((hp.room_iff d).mpr hroom).1
  have hent := entriesOf_fillLast cfg.blocksize qs
  have hlast := hp.last
  obtain ⟨xs,r,rfl⟩ := (List.eq_nil_or_concat qs).resolve_left hne
  rw [List.concat_eq_append] at hleaf huni hent hlast ⊢
  rw [fillLast_concat] at hleaf huni hent
  rw [lastSpot_concat,Nat.zero_add] at hlast
  generalize ({ r with recLen := cfg.blocksize-total recLen xs } : Record)=r' at *
  have hr : readRecord p.1 p.2=r' := by
    rw [hlast]
    exact (leaf_iff_layout.mp hleaf).record_ok.1
  rw [hr] at hspace
  obtain ⟨hux,hur⟩ := uniform_append.mp huni
  refine ⟨xs++inserted r' d++[],?_,?_,?_⟩
  · rw [hlast]
    exact hleaf.add hd hspace
  · rw [List.append_nil]
    exact uniform_append.mpr ⟨hux,uniform_inserted hur hspace⟩
  · rw [List.append_nil,entriesOf_append,entriesOf_inserted r' hd,← List.append_assoc,
      ← entriesOf_append,hent]

/-- What splitting a leaf and adding an entry does to entries and hashes. -/
structure Parted (cfg : Config) (h : Hashing) (len : ℕ) (rs : List Record) (d : Dentry)
    (t : SplitAdded) (lo up : List Record) : Prop where
  leafLow : Leaf cfg t.lower lo
  leafUpp : Leaf cfg t.upper up
  uniformLow : Uniform len lo
  uniformUpp : Uniform len up
  entries : (entriesOf lo++entriesOf up).Perm ((d.name.bytes,d.ino)::entriesOf rs)
  below : ∀ e∈entriesOf lo,h.hash e.1 < t.key
  above : ∀ e∈entriesOf up,t.key/2*2 ≤ h.hash e.1
  /-- The old records have one with the hash of the split, and one that is put below its key. -/
  median : ∃ e∈entriesOf rs,h.hash e.1=t.key/2*2
  first : ∃ e∈entriesOf rs,h.hash e.1 < t.key

variable {e : List UInt8 × ℕ}

theorem mem_entriesOf : e∈entriesOf qs ↔ ∃ r∈qs,r.live=true ∧ (r.name,r.inode)=e := by
  unfold entriesOf
  simp only [List.mem_map,List.mem_filter,and_assoc]

theorem Leaf.entriesOf_halves (hl : Leaf cfg m rs) :
    (entriesOf (lowerLive h rs)++entriesOf (upperLive h rs)).Perm (entriesOf rs) := by
  have hp := entriesOf_perm (hl.halves_perm (h := h))
  rwa [entriesOf_append,entriesOf_packed] at hp

theorem Leaf.split_hashes (hl : Leaf cfg m rs) (data2 : Bytes)
    (h2 : 2 ≤ (rs.filter Record.live).length) :
    let s := doSplit cfg h m data2
    s.key/2*2=s.hash2 ∧ (∀ x∈lowerHalf h rs,h.hash x.2.name < s.key) ∧
      (∀ x∈upperHalf h rs,s.hash2 ≤ h.hash x.2.name) ∧
      (∃ x,x∈lowerHalf h rs) ∧ ∃ x∈upperHalf h rs,h.hash x.2.name=s.hash2 := by
  obtain ⟨⟨l,hlast⟩,u,hhead⟩ := halves_nonempty (h := h) h2
  have hlm := List.mem_of_getLast? hlast
  have hum := List.mem_of_getElem? hhead
  have hs := hl.doSplit_halved (h := h) data2
  have hh := hs.hash2 u hhead
  have hc := hs.continued l hlast
  have hev := h.even u.2.name
  have hlu := halves_le hlm hum
  generalize doSplit cfg h m data2=s at hh hc
  refine ⟨?_,?_,?_,⟨l,hlm⟩,u,hum,hh.symm⟩
  · unfold Split.key
    have := s.continued.toNat_le
    omega
  · intro x hx
    have hxl := lowerHalf_last_le hlast hx
    unfold Split.key
    rw [hc]
    by_cases he : s.hash2=h.hash l.2.name
    · rw [decide_eq_true he,Bool.toNat_true]
      omega
    · rw [decide_eq_false he,Bool.toNat_false]
      omega
  · intro x hx
    rw [hh]
    exact upperHalf_head_le hhead hx

theorem Leaf.mem_entriesOf_lower (hl : Leaf cfg m rs) :
    e∈entriesOf (lowerLive h rs) ↔ ∃ x∈lowerHalf h rs,(x.2.name,x.2.inode)=e := by
  rw [mem_entriesOf]
  constructor
  · rintro ⟨r,hr,-,he⟩
    obtain ⟨x,hx,rfl⟩ := hl.mem_lowerLive.mp hr
    exact ⟨x,hx,he⟩
  · rintro ⟨x,hx,he⟩
    have hr := hl.mem_lowerLive.mpr ⟨x,hx,rfl⟩
    exact ⟨_,hr,(hl.lowerLive_packed hr).1,he⟩

theorem mem_entriesOf_upper :
    e∈entriesOf (upperLive h rs) ↔ ∃ x∈upperHalf h rs,(x.2.name,x.2.inode)=e := by
  rw [mem_entriesOf]
  constructor
  · rintro ⟨r,hr,-,he⟩
    obtain ⟨x,hx,rfl⟩ := mem_upperLive.mp hr
    exact ⟨x,hx,he⟩
  · rintro ⟨x,hx,he⟩
    have hr := mem_upperLive.mpr ⟨x,hx,rfl⟩
    exact ⟨_,hr,(upperLive_packed hr).1,he⟩

theorem le_total_of_mem {r : Record} {len : ℕ} (hr : r∈qs) (hl : r.recLen=len) :
    len ≤ total recLen qs := by
  rw [← hl]
  exact total_mem_le hr

/-- A leaf whose live records all need the length of the new one can always be split for it. -/
theorem Leaf.splitAdd (hl : Leaf cfg m rs) (data2 : Bytes) (hd : d.Valid cfg)
    (hlen : ∀ r∈rs,r.live=true → dirRecLen r.name.length=d.reclen)
    (h2 : 2 ≤ (rs.filter Record.live).length) :
    ∃ lo up,Parted cfg h d.reclen rs d (Htree.splitAdd cfg h m data2 d) lo up := by
  obtain ⟨hkey,hbelow,habove,⟨l,hlm⟩,u,hum,hhash⟩ := hl.split_hashes (h := h) data2 h2
  obtain ⟨hlow,hupp⟩ := hl.sides (h := h) data2
  have hent := hl.entriesOf_halves (h := h)
  have hsum := hl.halves_room (h := h)
  have hlo : l.2.trim∈lowerLive h rs := hl.mem_lowerLive.mpr ⟨l,hlm,rfl⟩
  have hup : u.2.trim∈upperLive h rs := mem_upperLive.mpr ⟨u,hum,rfl⟩
  have hlenAt {x : ℕ × Record} (hx : x∈sortedSpots h rs) : dirRecLen x.2.name.length=d.reclen := by
    obtain ⟨h1,h3⟩ := mem_sortedSpots.mp hx
    exact hlen x.2 (mem_of_mem_spots h1) h3
  have hlenLow : ∀ r∈lowerLive h rs,dirRecLen r.name.length=d.reclen := by
    intro r hr
    obtain ⟨x,hx,rfl⟩ := hl.mem_lowerLive.mp hr
    exact hlenAt (List.mem_of_mem_take hx)
  have hlenUpp : ∀ r∈upperLive h rs,dirRecLen r.name.length=d.reclen := by
    intro r hr
    obtain ⟨x,hx,rfl⟩ := mem_upperLive.mp hr
    exact hlenAt (List.mem_of_mem_drop hx)
  -- each side leaves the other one the space of a record
  have hone := le_total_of_mem hlo (hlenLow l.2.trim hlo)
  have htwo := le_total_of_mem hup (hlenUpp u.2.trim hup)
  have hl0 := List.ne_nil_of_mem hlo
  have hu0 := List.ne_nil_of_mem hup
  have hbel : ∀ e∈entriesOf (lowerLive h rs),h.hash e.1 < (doSplit cfg h m data2).key := by
    intro e he
    obtain ⟨x,hx,rfl⟩ := hl.mem_entriesOf_lower.mp he
    exact hbelow x hx
  have habv : ∀ e∈entriesOf (upperLive h rs),(doSplit cfg h m data2).key/2*2 ≤ h.hash e.1 := by
    intro e he
    obtain ⟨x,hx,rfl⟩ := mem_entriesOf_upper.mp he
    rw [hkey]
    exact habove x hx
  have hmedian : ∃ e∈entriesOf rs,h.hash e.1=(doSplit cfg h m data2).key/2*2 :=
    ⟨_,hent.subset (List.mem_append_right _ (mem_entriesOf_upper.mpr ⟨u,hum,rfl⟩)),
      hhash.trans hkey.symm⟩
  have hfirst : ∃ e∈entriesOf rs,h.hash e.1 < (doSplit cfg h m data2).key :=
    ⟨_,hent.subset (List.mem_append_left _ (hl.mem_entriesOf_lower.mpr ⟨l,hlm,rfl⟩)),hbelow l hlm⟩
  unfold Htree.splitAdd Split.side
  dsimp only at hlow hupp ⊢
  split
  · rename_i hside
    obtain ⟨rl,h1,h3,h4⟩ := hlow.other hl0 hlenLow
    obtain ⟨ru,g1,g3,g4⟩ := hupp.add hu0 hd hlenUpp (by omega)
    refine ⟨rl,ru,h1,g1,h3,g3,?_,?_,?_,hmedian,hfirst⟩
    · rw [h4,g4,← List.append_assoc]
      exact List.perm_append_singleton _ _ |>.trans (hent.cons _)
    · rwa [h4]
    rw [g4]
    intro e he
    rcases List.mem_append.mp he with he | he
    · exact habv e he
    · obtain rfl := List.mem_singleton.mp he
      dsimp only
      omega
  · rename_i hside
    obtain ⟨rl,h1,h3,h4⟩ := hlow.add hl0 hd hlenLow (by omega)
    obtain ⟨ru,g1,g3,g4⟩ := hupp.other hu0 hlenUpp
    refine ⟨rl,ru,h1,g1,h3,g3,?_,?_,?_,hmedian,hfirst⟩
    · rw [h4,g4,List.append_assoc]
      exact List.perm_middle.trans (hent.cons _)
    · rw [h4]
      intro e he
      rcases List.mem_append.mp he with he | he
      · exact hbel e he
      · obtain rfl := List.mem_singleton.mp he
        dsimp only
        omega
    · rwa [g4]

end Ext2fsX.Htree
