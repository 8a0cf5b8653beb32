import Ext2fsX.Directory.Removal

namespace Ext2fsX.Directory

open Framework Record

variable {cfg : Config}

def Record.trim (r : Record) : Record := { r with recLen := dirRecLen r.name.length }

def packed (rs : List Record) : List Record := (rs.filter Record.live).map Record.trim

theorem packed_append (xs ys : List Record) : packed (xs++ys)=packed xs++packed ys := by
  simp [packed]

variable {r : Record}

theorem packed_live (h : r.live=true) : packed [r]=[r.trim] := by
  simp [packed,h]

theorem packed_dead (h : ¬r.live=true) : packed [r]=[] := by
  simp [packed,h]

theorem entriesOf_packed (rs : List Record) : entriesOf (packed rs)=entriesOf rs := by
  induction rs with
  | nil => rfl
  | cons r rs ih =>
    rw [← List.singleton_append,packed_append,entriesOf_append,entriesOf_append,ih]
    cases hl : r.live with
    | true =>
      rw [packed_live hl]
      simp [entriesOf_cons,Record.live,Record.trim]
    | false =>
      rw [packed_dead (by simp [hl]),entriesOf_cons]
      simp [hl]

variable {rs : List Record}

variable {base count o p : ℕ} {cur : Record}

theorem total_packed {rd : ℕ → Record} (h : Tiles recLen rd (Record.Ok cfg) o rs) :
    total recLen (packed rs)+total Record.free rs=total recLen rs := by
  induction rs generalizing o with
  | nil => rfl
  | cons r rs ih =>
    have hr := h.2.1.used_le
    have ht := ih h.2.2
    rw [← List.singleton_append,packed_append,total_append,total_append,total_append,← ht]
    cases hl : r.live with
    | true =>
      have hu : r.used=dirRecLen r.name.length := if_pos hl
      rw [packed_live hl]
      simp only [total_cons,total_nil,Nat.add_zero,Record.trim,Record.free]
      omega
    | false =>
      have hu : r.used=0 := if_neg (by simp [hl])
      rw [packed_dead (by simp [hl])]
      simp only [total_cons,total_nil,Nat.add_zero,Record.free]
      omega

theorem sub32_of_le {a b : ℕ} (h : b≤a) (ha : a<4294967296) : sub32 a b=a-b := by
  unfold sub32
  rw [show a+4294967296-b=a-b+4294967296 by omega,Nat.add_mod_right]
  exact Nat.mod_eq_of_lt (by omega)

theorem add_mod_le (a b n : ℕ) : (a+b)%n≤a%n+b := by
  rw [← Nat.mod_add_mod]
  exact Nat.mod_le _ _

theorem Record.Ok.trim {q : ℕ} (h : Record.Ok cfg p r) (hl : r.live=true)
    (hq : q%cfg.blocksize+dirRecLen r.name.length ≤ cfg.blocksize) : Record.Ok cfg q r.trim := by
  have hb := dirRecLen_bounds r.name.length
  have hn := List.length_pos_of_ne_nil (h.named hl)
  have hone : dirRecLen 1≤dirRecLen r.name.length := by
    unfold dirRecLen
    omega
  exact ⟨hone,hb.2.2,Nat.le_refl _,hq,h.inode,h.named⟩

/-- `done` has been packed and `cur` moved behind it; what follows is still where it was in `m`. -/
structure Compacting (cfg : Config) (m : Bytes) (base : ℕ) (done : List Record) (cur : Record)
    (c : Compact) : Prop where
  ep : c.ep=total recLen (packed done)
  loc : c.loc=total recLen done+cur.recLen
  dsize : c.dsize=dirRecLen cur.name.length
  space : c.ep+c.dsize+c.spacefree=c.loc
  tiles : Tiles recLen (readRecord c.data) (Record.Ok cfg) base (packed done)
  cur : readRecord c.data (base+c.ep)=cur
  below : Bytes.Agree m c.data 0 base
  above : ∀ hi,Bytes.Agree m c.data (base+c.loc) hi

variable {done : List Record} {c : Compact} {m : Bytes}

theorem Compacting.trimmed
    (h : Compacting cfg m base done cur c) (hok : Record.Ok cfg p cur) (hlive : cur.live=true)
    (hfit : base%cfg.blocksize+c.loc ≤ cfg.blocksize) :
    let data := c.data.store (base+c.ep+4) (Bytes.enc16 c.dsize)
    Tiles recLen (readRecord data) (Record.Ok cfg) base (packed (done++[cur])) ∧
      Bytes.Agree m data 0 base ∧ (∀ hi,Bytes.Agree m data (base+c.loc) hi) ∧
      c.ep+c.dsize=total recLen (packed (done++[cur])) := by
  have hbs := cfg.blocksize_bounds
  have hb := dirRecLen_bounds cur.name.length
  have hspace := h.space
  have hd := h.dsize
  have hmod := add_mod_le base c.ep cfg.blocksize
  refine ⟨?_,?_,fun hi => ?_,?_⟩
  · rw [packed_append,packed_live hlive,tiles_append,← h.ep]
    refine ⟨?_,?_,?_,trivial⟩
    · apply tiles_of_agree h.tiles
      rw [← h.ep]
      exact c.data.store_agree _ _ (.inl (by omega))
    · rw [readRecord_store_recLen c.data _ _ (by omega),h.cur,hd]
      rfl
    · exact hok.trim hlive (by omega)
  · exact h.below.trans (c.data.store_agree _ _ (.inl (by omega)))
  · exact (h.above hi).trans (c.data.store_agree _ _ (.inr (by simp; omega)))
  · rw [packed_append,packed_live hlive,total_append,← h.ep,hd]
    simp [Record.trim]

theorem Compacting.moved {m data : Bytes} {ep loc sf : ℕ} {n : Record}
    (hn : Record.Ok cfg p n) (hread : readRecord data (base+loc)=n)
    (hep : ep=total recLen (packed done)) (hloc : loc=total recLen done)
    (hle : ep+sf=loc)
    (htiles : Tiles recLen (readRecord data) (Record.Ok cfg) base (packed done))
    (hbelow : Bytes.Agree m data 0 base) (habove : ∀ hi,Bytes.Agree m data (base+loc) hi) :
    Compacting cfg m base done n
      ⟨data.copy (base+loc) (base+ep) (dirRecLen n.name.length),ep,loc+n.recLen,
        dirRecLen n.name.length,sf+(n.recLen-dirRecLen n.name.length)⟩ := by
  have hfit := hn.fits
  have hb := dirRecLen_bounds n.name.length
  refine ⟨hep,by rw [hloc],rfl,by dsimp only; omega,?_,?_,?_,fun hi => ?_⟩
  · apply tiles_of_agree htiles
    rw [← hep]
    exact data.copy_agree _ _ _ (.inl (Nat.le_refl _))
  · dsimp only
    rw [readRecord_copy,hread]
    rw [hread]
    omega
  · exact hbelow.trans (data.copy_agree _ _ _ (.inl (by omega)))
  · dsimp only
    apply ((habove hi).mono (by omega) (Nat.le_refl _)).trans
    exact data.copy_agree _ _ _ (.inr (by omega))

theorem Compacting.step {room q : ℕ} {n : Record}
    (h : Compacting cfg m base done cur c) (hcur : Record.Ok cfg p cur) (hn : Record.Ok cfg q n)
    (hread : readRecord m (base+c.loc)=n) (hroom : c.loc+n.recLen ≤ room)
    (hfit : base%cfg.blocksize+room ≤ cfg.blocksize) :
    ∃ c',c.step base room=.ok c' ∧ Compacting cfg m base (done++[cur]) n c' := by
  have hbn := dirRecLen_bounds n.name.length
  have hnfit := hn.fits
  have hspace := h.space
  have hd := h.dsize
  have hbs := cfg.blocksize_bounds
  have hsub : sub32 n.recLen (dirRecLen n.name.length)=n.recLen-dirRecLen n.name.length :=
    sub32_of_le hnfit (by omega)
  have hkeep {data : Bytes} (ha : ∀ hi,Bytes.Agree m data (base+c.loc) hi) :
      readRecord data (base+c.loc)=n := by
    rw [← hread]
    exact readRecord_congr (ha _)
  have hdone : total recLen (done++[cur])=c.loc := by simp [h.loc]
  unfold Compact.step
  rw [if_neg (by omega)]
  rw [h.cur]
  by_cases hl : cur.live=true
  · obtain ⟨h1,h2,h3,hep⟩ := h.trimmed hcur hl (by omega)
    simp only [hl,if_true]
    rw [hkeep h3,if_neg (by omega),hsub]
    exact ⟨_,rfl,.moved hn (hkeep h3) hep hdone.symm (by omega) h1 h2 h3⟩
  · have hpack : packed (done++[cur])=packed done := by
      rw [packed_append,packed_dead hl,List.append_nil]
    have hep : c.ep=total recLen (packed (done++[cur])) := by rw [hpack,h.ep]
    simp only [hl,Bool.false_eq_true,if_false]
    rw [hkeep h.above,if_neg (by omega),hsub]
    exact ⟨_,rfl,.moved hn (hkeep h.above) hep hdone.symm (by omega) (hpack ▸ h.tiles) h.below
      h.above⟩

theorem Compacting.loop {done rest : List Record}
    (h : Compacting cfg m base done cur c) (room count fuel : ℕ) (hcur : Record.Ok cfg p cur)
    (hrest : Tiles recLen (readRecord m) (Record.Ok cfg) (base+c.loc) rest)
    (hcount : c.loc+total recLen rest=count) (hroom : count ≤ room)
    (hfit : base%cfg.blocksize+room ≤ cfg.blocksize) (hfuel : rest.length≤fuel) :
    ∃ done' cur' c' p',Compact.loop base room count fuel c=.ok c' ∧
      done'++[cur']=done++cur::rest ∧ Compacting cfg m base done' cur' c' ∧
      Record.Ok cfg p' cur' ∧ c'.loc=count := by
  induction rest generalizing done cur c p fuel with
  | nil =>
    have hlt : ¬c.loc < count := by simp at hcount; omega
    refine ⟨done,cur,c,p,?_,rfl,h,hcur,by simpa using hcount⟩
    cases fuel <;> simp [Compact.loop,hlt]
  | cons n rest ih =>
    obtain ⟨h1,h2,h3⟩ := hrest
    have hpos := h2.pos
    rw [total_cons] at hcount
    cases fuel with
    | zero => simp at hfuel
    | succ fuel =>
      obtain ⟨c',hs,hc'⟩ := h.step hcur h2 h1 (by omega) hfit
      have hloc : c'.loc=c.loc+n.recLen := by
        rw [hc'.loc,h.loc]
        simp
      simp only [Compact.loop]
      rw [if_pos (by omega),hs]
      have hf : rest.length≤fuel := by simpa using hfuel
      obtain ⟨done',cur',c'',p',h4,h5,h6,h7,h8⟩ := ih hc' fuel h2
        (by rw [hloc,← Nat.add_assoc]; exact h3) (by omega) hf
      exact ⟨done',cur',c'',p',h4,by rw [h5]; simp,h6,h7,h8⟩

structure NewRecord (cfg : Config) (r : Record) : Prop where
  inode : r.inode ≤ cfg.inodesCount
  named : r.name≠[]
  short : r.name.length≤255

theorem NewRecord.ok (h : NewRecord cfg r) {len : ℕ} (hlen : dirRecLen r.name.length≤len)
    (hfour : len%4=0) (hblock : o%cfg.blocksize+len ≤ cfg.blocksize) : Record.Ok cfg o { r with recLen := len } := by
  have hn := List.length_pos_of_ne_nil h.named
  have hone : dirRecLen 1≤dirRecLen r.name.length := by
    unfold dirRecLen
    omega
  exact ⟨Nat.le_trans hone hlen,hfour,hlen,hblock,h.inode,fun _ => h.named⟩

theorem tiles_new {m data : Bytes} {ep len : ℕ} {xs : List Record} (junk : Bytes)
    (hr : NewRecord cfg r) (hep : ep=total recLen xs)
    (htiles : Tiles recLen (readRecord data) (Record.Ok cfg) base xs)
    (hbelow : Bytes.Agree m data 0 base) (habove : ∀ hi,Bytes.Agree m data (base+(ep+len)) hi)
    (hlen : dirRecLen r.name.length≤len) (hfour : len%4=0)
    (hblock : base%cfg.blocksize+(ep+len) ≤ cfg.blocksize) :
    let data' := data.store (base+ep) (Record.image { r with recLen := len } junk)
    Tiles recLen (readRecord data') (Record.Ok cfg) base (xs++[{ r with recLen := len }]) ∧
      Bytes.Agree m data' 0 base ∧ ∀ hi,Bytes.Agree m data' (base+(ep+len)) hi := by
  have hbs := cfg.blocksize_bounds
  have hmod := add_mod_le base ep cfg.blocksize
  have hi := Nat.lt_of_le_of_lt hr.inode cfg.inodes_lt
  have hshort := hr.short
  have himage := Record.image_length { r with recLen := len } junk
  dsimp only at himage
  refine ⟨?_,?_,fun hi => ?_⟩
  · rw [tiles_append,← hep]
    refine ⟨?_,?_,hr.ok hlen hfour (by omega),trivial⟩
    · apply tiles_of_agree htiles
      rw [← hep]
      exact data.store_agree _ _ (.inl (Nat.le_refl _))
    · exact readRecord_store_image data _ _ junk hi (by dsimp only; omega) (by dsimp only; omega)
  · exact hbelow.trans (data.store_agree _ _ (.inl (by omega)))
  · apply (habove hi).trans
    exact data.store_agree _ _ (.inr (by omega))

theorem total_four {rd : ℕ → Record}
    (h : Tiles recLen rd (Record.Ok cfg) o rs) : total recLen rs%4=0 := by
  induction rs generalizing o with
  | nil => rfl
  | cons r rs ih =>
    have h1 := h.2.1.four
    have h2 := ih h.2.2
    rw [total_cons]
    omega

theorem Compacting.place {r : Record}
    (h : Compacting cfg m base done cur c) (room : ℕ) (hcur : Record.Ok cfg p cur)
    (hloc : c.loc=count) (hr : NewRecord cfg r) (hcount : count%4=0)
    (hneed : total recLen (packed (done++[cur]))+dirRecLen r.name.length ≤ count)
    (hroom : count ≤ room) (hfit : base%cfg.blocksize+room ≤ cfg.blocksize) (junk : Bytes) :
    ∃ data,c.place base room r junk=.ok data ∧
      Tiles recLen (readRecord data) (Record.Ok cfg) base (packed (done++[cur])++
        [{ r with recLen := count-total recLen (packed (done++[cur])) }]) ∧
      Bytes.Agree m data 0 base ∧ ∀ hi,Bytes.Agree m data (base+count) hi := by
  have hb := dirRecLen_bounds cur.name.length
  have hspace := h.space
  have hd := h.dsize
  unfold Compact.place
  rw [if_neg (by omega),h.cur]
  by_cases hl : cur.live=true
  · obtain ⟨h1,h2,h3,hep⟩ := h.trimmed hcur hl (by omega)
    have hino : ¬cur.inode=0 := by simpa [Record.live] using hl
    have hfour := total_four h1
    rw [← hep] at hneed hfour ⊢
    rw [if_neg hino,if_neg (by omega),if_neg (by omega)]
    have hsf : c.spacefree=count-(c.ep+c.dsize) := by omega
    have habove : ∀ hi,Bytes.Agree m (c.data.store (base+c.ep+4) (Bytes.enc16 c.dsize))
        (base+(c.ep+c.dsize+(count-(c.ep+c.dsize)))) hi := by
      rw [show c.ep+c.dsize+(count-(c.ep+c.dsize))=c.loc by omega]
      exact h3
    obtain ⟨h4,h5,h6⟩ := tiles_new junk hr hep h1 h2 habove (by omega) (by omega)
      (by omega)
    rw [show c.ep+c.dsize+(count-(c.ep+c.dsize))=count by omega] at h6
    rw [hsf]
    exact ⟨_,rfl,h4,h5,h6⟩
  · have hpack : packed (done++[cur])=packed done := by
      rw [packed_append,packed_dead hl,List.append_nil]
    have hino : cur.inode=0 := by simpa [Record.live] using hl
    have hfour := total_four h.tiles
    rw [hpack,← h.ep] at hneed
    rw [← h.ep] at hfour
    rw [hpack,← h.ep,if_pos hino,if_neg (by omega),if_neg (by omega)]
    have hsf : c.spacefree+c.dsize=count-c.ep := by omega
    have habove : ∀ hi,Bytes.Agree m c.data (base+(c.ep+(count-c.ep))) hi := by
      rw [show c.ep+(count-c.ep)=c.loc by omega]
      exact h.above
    obtain ⟨h4,h5,h6⟩ := tiles_new junk hr h.ep h.tiles h.below habove (by omega)
      (by omega) (by omega)
    rw [show c.ep+(count-c.ep)=count by omega] at h6
    rw [hsf]
    exact ⟨_,rfl,h4,h5,h6⟩

variable {rs before run behind : List Record} {d : Dir}

theorem Layout.compact_slot {offset : ℕ} (h : Layout cfg d rs)
    (hs : SlotAt cfg rs (dirRecLen r.name.length) offset count before run behind)
    (hr : NewRecord cfg r) (junk : Bytes) :
    ∃ data len,compact offset (cfg.blocksize-offset%cfg.blocksize) count r junk d.data=.ok data ∧
      Layout cfg { d with data := data }
        (before++(packed run++[{ r with recLen := len }])++behind) := by
  obtain ⟨rfl,hstart,hcount,hroom,hblock,hne⟩ := hs
  have hbs := cfg.blocksize_bounds
  have ht := h.tiles
  rw [tiles_append,tiles_append,Nat.zero_add,hstart] at ht
  have hrun := ht.1.2
  obtain ⟨cur,rest,rfl⟩ := List.exists_cons_of_ne_nil hne
  obtain ⟨h1,h2,h3⟩ := hrun
  have hfit := h2.fits
  have hcb := h2.block
  have hfree := total_packed ht.1.2
  have hfour := total_four ht.1.2
  have hinit : Compacting cfg d.data offset [] cur ⟨d.data,0,cur.recLen,dirRecLen cur.name.length,
        sub32 cur.recLen (dirRecLen cur.name.length)⟩ := by
    refine ⟨rfl,by simp,rfl,?_,trivial,h1,fun _ _ _ => rfl,fun _ _ _ _ => rfl⟩
    dsimp only
    rw [sub32_of_le hfit (by omega)]
    omega
  have hlen := h3.length_le (fun _ _ hr => hr.pos)
  obtain ⟨done,last,c,p,hloop,hsplit,hc,hlast,hloc⟩ := hinit.loop
    (cfg.blocksize-offset%cfg.blocksize) count count h2 h3 (by simpa using hcount) (by omega)
    (by omega) (by rw [total_cons] at hcount; omega)
  rw [List.nil_append] at hsplit
  rw [hcount] at hfree hfour
  obtain ⟨data,hplace,htiles,hbelow,habove⟩ := hc.place (cfg.blocksize-offset%cfg.blocksize)
    hlast hloc hr hfour (by rw [hsplit]; omega) (by omega) (by omega) junk
  rw [hsplit] at htiles
  refine ⟨data,count-total recLen (packed (cur::rest)),?_,?_⟩
  · unfold compact
    rw [h1,if_neg (by have := dirRecLen_bounds cur.name.length; omega),hloop]
    exact hplace
  apply h.replace data
  · rw [hstart]
    exact hbelow
  · rw [hstart,hcount]
    exact habove _
  · rw [hstart]
    exact htiles
  · rw [hcount,total_append,total_cons,total_nil,Nat.add_zero]
    dsimp only
    omega

theorem SlotAt.count_pos {need offset : ℕ}
    (hs : SlotAt cfg rs need offset count before run behind) (h : Layout cfg d rs) :
    0 < count ∧ offset+count≤d.size := by
  obtain ⟨rfl,hstart,hcount,-,-,hne⟩ := hs
  have ht := (tiles_append 0 before run).mp ((tiles_append 0 _ behind).mp h.tiles).1
  have hlen := ht.2.length_le (fun _ _ hr => hr.pos)
  have hpos := List.length_pos_of_ne_nil hne
  have hsize := h.size_eq
  rw [total_append,total_append] at hsize
  omega

def newRecord (name : Name) (ip : Target cfg) (len : ℕ) : Record :=
  ⟨ip.number,len,ip.fileType,name.bytes⟩

theorem newRecord_new (name : Name) (ip : Target cfg) : NewRecord cfg (newRecord name ip 0) :=
  ⟨ip.le,name.ne_nil,name.short⟩

theorem entriesOf_newRecord (name : Name) (ip : Target cfg) (len : ℕ) :
    entriesOf [newRecord name ip len]=[(name.bytes,ip.number)] := by
  have hlive : ip.number≠0 := Nat.ne_of_gt ip.pos
  simp [entriesOf_cons,Record.live,newRecord,hlive]

theorem Layout.insert_slot (h : Layout cfg d rs)
    {name : Name} (hs : SlotAt cfg rs (dirRecLen name.bytes.length) d.offset d.count before run
      behind) (ip : Target cfg) (env : Env) :
    (d.insert cfg name ip env=.ok (d,.eio,none) ∧ env.bad≠[]) ∨
    ∃ data len,d.insert cfg name ip env=.ok ({ d with data := data },.ok,
        if d.endoff≠0 ∧ d.endoff<d.size then some d.endoff else none) ∧
      Layout cfg { d with data := data }
        (before++(packed run++[newRecord name ip len])++behind) := by
  obtain ⟨hpos,hle⟩ := hs.count_pos h
  obtain ⟨data,len,hc,hl⟩ := h.compact_slot (r := newRecord name ip 0) hs (newRecord_new name ip)
    env.junk
  have hmax : max d.size (d.offset+d.count)=d.size := Nat.max_eq_left hle
  unfold Dir.insert
  dsimp only
  rw [if_neg (by omega),hmax]
  split
  · rename_i hbad
    exact .inl ⟨rfl,fun he => by simp [he] at hbad⟩
  · right
    refine ⟨data,len,?_,hl⟩
    unfold newRecord at hc
    rw [hc]

theorem Config.roundup_add {s k : ℕ} (hs : cfg.blocksize ∣ s) (hk : 0<k) (hle : k ≤ cfg.blocksize) :
    cfg.roundup (s+k)=s+cfg.blocksize := by
  apply Nat.le_antisymm
  · exact cfg.roundup_le (by omega) (Nat.dvd_add hs (Nat.dvd_refl _))
  obtain ⟨h1,⟨c,hc⟩⟩ := cfg.le_roundup (s+k)
  obtain ⟨b,rfl⟩ := hs
  rw [hc] at h1 ⊢
  have hlt : b < c := by
    by_contra hge
    have := Nat.mul_le_mul_left cfg.blocksize (Nat.le_of_not_lt hge)
    omega
  have := Nat.mul_le_mul_left cfg.blocksize hlt
  omega

theorem Layout.write_end {rs : List Record} (h : Layout cfg d rs) (name : Name) (ip : Target cfg)
    (junk : Bytes) (ho : o=d.size) :
    Layout cfg (d.write cfg o (Record.image (newRecord name ip cfg.blocksize) junk))
      (rs++[newRecord name ip cfg.blocksize]) := by
  subst ho
  have hbs := cfg.blocksize_bounds
  have hnew := newRecord_new name ip
  have hshort := name.short
  have hb := dirRecLen_bounds name.bytes.length
  have hlen : (Record.image (newRecord name ip cfg.blocksize) junk).length=
      dirRecLen name.bytes.length := Record.image_length _ _
  have hsize : (d.write cfg d.size (Record.image (newRecord name ip cfg.blocksize) junk)).size=
      d.size+cfg.blocksize := by
    change cfg.roundup (max d.size (d.size+_))=_
    rw [hlen,Nat.max_eq_right (by omega)]
    exact cfg.roundup_add h.blocks (by omega) (by omega)
  have hzero : d.size%cfg.blocksize=0 := Nat.mod_eq_zero_of_dvd h.blocks
  refine ⟨?_,?_,?_⟩
  · rw [tiles_append,Nat.zero_add,h.size_eq]
    refine ⟨?_,?_,?_,trivial⟩
    · apply tiles_of_agree h.tiles
      rw [h.size_eq,Nat.zero_add]
      intro i _ hi
      have hold := Bytes.store_agree (fun i => if i<d.size then d.data i else 0) d.size
        (Record.image (newRecord name ip cfg.blocksize) junk) (.inl (Nat.le_refl _)) i
        (Nat.zero_le _) hi
      exact hold.trans (if_pos hi)
    · exact readRecord_store_image _ _ _ junk (Nat.lt_of_le_of_lt ip.le cfg.inodes_lt)
        (by simp only [newRecord]; omega) (by simp only [newRecord]; omega)
    · exact hnew.ok (by simp only [newRecord]; omega)
        (Nat.mod_eq_zero_of_dvd cfg.four_dvd_blocksize) (by omega)
  · rw [total_append,h.size_eq,hsize]
    simp [newRecord]
  · rw [hsize]
    exact Nat.dvd_add h.blocks (Nat.dvd_refl _)

theorem Layout.truncate_dead {rs : List Record} (h : Layout cfg d rs) {e : ℕ}
    (he : cfg.blocksize ∣ e) (hle : e≤d.size) (hd : DeadFrom rs e) :
    ∃ xs ys,rs=xs++ys ∧ (∀ r∈ys,r.live=false) ∧ Layout cfg (d.truncate e) xs ∧
      entriesOf xs=entriesOf rs := by
  obtain ⟨xs,ys,rfl,hx,hdead⟩ := hd
  have ht := (tiles_append 0 xs ys).mp h.tiles
  refine ⟨xs,ys,rfl,hdead,⟨?_,hx,he⟩,?_⟩
  · apply tiles_of_agree ht.1
    intro i _ hi
    apply if_pos
    omega
  · have hys : ys.filter Record.live=[] := List.filter_eq_nil_iff.mpr (by simpa using hdead)
    simp [entriesOf,hys]

end Ext2fsX.Directory
