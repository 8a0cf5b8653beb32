import Ext2fsX.Directory.Calls
import Ext2fsX.Directory.FirstFit
import Ext2fsX.Htree.Runs

namespace Ext2fsX.Directory

open Framework Record

variable {cfg : Config}

def SameOutside (m m' : Bytes) (base room : ℕ) : Prop := ∀ i,i<base ∨ base+room ≤ i → m' i=m i

theorem SameOutside.refl (m : Bytes) (base room : ℕ) : SameOutside m m base room := fun _ _ => rfl

variable {base room : ℕ} {c : Compact} {d' : Dir} {ip : Target cfg} {env env' : Env}

theorem SameOutside.trans {m m' m'' : Bytes} (h : SameOutside m m' base room)
    (h' : SameOutside m' m'' base room) : SameOutside m m'' base room :=
  fun i hi => (h' i hi).trans (h i hi)

theorem SameOutside.store (m : Bytes) {o : ℕ} {bs : List UInt8} (hlo : base≤o)
    (hhi : o+bs.length≤base+room) : SameOutside m (m.store o bs) base room := by
  intro i hi
  apply if_neg
  omega

theorem SameOutside.copy (m : Bytes) {src dst n : ℕ} (hlo : base≤dst)
    (hhi : dst+n≤base+room) : SameOutside m (m.copy src dst n) base room := by
  intro i hi
  apply if_neg
  omega

theorem Compact.step_outside {c' : Compact} (h : c.step base room=.ok c') :
    SameOutside c.data c'.data base room := by
  unfold Compact.step at h
  split at h
  · cases h
  rename_i hroom
  dsimp only at h
  have htrim : SameOutside c.data (if (readRecord c.data (base+c.ep)).live then
      c.data.store (base+c.ep+4) (Bytes.enc16 c.dsize) else c.data) base room := by
    split
    · exact .store _ (by omega) (by rw [Bytes.enc16_length]; omega)
    · exact .refl _ _ _
  generalize (if (readRecord c.data (base+c.ep)).live then
    c.data.store (base+c.ep+4) (Bytes.enc16 c.dsize) else c.data)=data at h htrim
  generalize (if (readRecord c.data (base+c.ep)).live then c.ep+c.dsize else c.ep)=ep at h
  split at h
  · cases h
  · rename_i hcopy
    cases h
    exact htrim.trans (.copy _ (by omega) (by omega))

theorem Compact.loop_outside {count fuel : ℕ} {c' : Compact}
    (h : Compact.loop base room count fuel c=.ok c') : SameOutside c.data c'.data base room := by
  induction fuel generalizing c with
  | zero =>
    unfold Compact.loop at h
    split at h
    · cases h
    · cases h
      exact .refl _ _ _
  | succ fuel ih =>
    unfold Compact.loop at h
    split at h
    · cases hs : c.step base room with
      | error x =>
        rw [hs] at h
        cases h
      | ok c1 =>
        rw [hs] at h
        exact (Compact.step_outside hs).trans (ih h)
    · cases h
      exact .refl _ _ _

theorem Compact.place_outside {newdir : Record} {junk data : Bytes}
    (h : c.place base room newdir junk=.ok data) : SameOutside c.data data base room := by
  unfold Compact.place at h
  dsimp only at h
  split at h
  · cases h
  split at h
  · split at h
    · cases h
    split at h
    · cases h
    cases h
    exact .store _ (by omega) (by rw [Record.image_length]; dsimp only; omega)
  · split at h
    · cases h
    split at h
    · cases h
    cases h
    exact (SameOutside.store _ (by omega) (by rw [Bytes.enc16_length]; omega)).trans
      (.store _ (by omega) (by rw [Record.image_length]; dsimp only; omega))

theorem compact_outside {count : ℕ} {newdir : Record} {junk m data : Bytes}
    (h : compact base room count newdir junk m=.ok data) : SameOutside m data base room := by
  unfold compact at h
  dsimp only at h
  split at h
  · cases h
  cases hl : Compact.loop base room count count ⟨m,0,(readRecord m base).recLen,
      dirRecLen (readRecord m base).name.length,
      sub32 (readRecord m base).recLen (dirRecLen (readRecord m base).name.length)⟩ with
  | error x =>
    rw [hl] at h
    cases h
  | ok c =>
    rw [hl] at h
    exact (Compact.loop_outside hl).trans (Compact.place_outside h)

/-- At most one old block has changed and the directory has not grown, or it has one more block and
is otherwise as it was. -/
def Confined (cfg : Config) (d d' : Dir) : Prop :=
  (∃ k,k*cfg.blocksize<d.size ∧ d'.size≤d.size ∧
    ∀ i<d'.size,i/cfg.blocksize≠k → d'.data i=d.data i) ∨
  (d'.size=d.size+cfg.blocksize ∧ ∀ i<d.size,d'.data i=d.data i)

variable {name : Name}

/-- `ext2_direnter` up to its truncation changes one block or adds one. -/
theorem Dir.insert_confined {d : Dir} {t : Option ℕ} (hblocks : cfg.blocksize ∣ d.size)
    (hslot : d.count=0 ∧ d.offset=d.size ∨ 0<d.count ∧ d.offset+d.count≤d.size)
    (h : d.insert cfg name ip env=.ok (d',.ok,t)) :
    Confined cfg d d' ∧ (t≠none → d'.size≤d.size) := by
  have hbs := cfg.blocksize_bounds
  unfold Dir.insert at h
  dsimp only at h
  rcases hslot with ⟨hc,ho⟩ | ⟨hc,hin⟩
  · rw [if_pos hc] at h
    split at h
    · cases h
    split at h
    · split at h <;> cases h
    split at h
    · cases h
      have hshort := name.short
      have hb := dirRecLen_bounds name.bytes.length
      refine ⟨.inr ⟨?_,?_⟩,fun hne => absurd rfl hne⟩
      · unfold Dir.write
        rw [Record.image_length,ho,Nat.max_eq_right (by omega)]
        exact cfg.roundup_add hblocks (by dsimp only; omega) (by dsimp only; omega)
      · intro i hi
        have hold := Bytes.store_agree (fun i => if i<d.size then d.data i else 0) d.offset
          (Record.image ⟨ip.number,cfg.blocksize,ip.fileType,name.bytes⟩ env.junk)
          (.inl (Nat.le_of_eq ho.symm)) i (Nat.zero_le i) hi
        exact hold.trans (if_pos hi)
    · cases h
  · rw [if_neg (by omega),Nat.max_eq_left hin] at h
    split at h
    · cases h
    split at h
    · cases h
    rename_i data hcompact
    cases h
    have hout := compact_outside hcompact
    have hdiv := Nat.div_add_mod d.offset cfg.blocksize
    refine ⟨.inl ⟨d.offset/cfg.blocksize,?_,Nat.le_refl _,?_⟩,fun _ => Nat.le_refl _⟩
    · rw [Nat.mul_comm]
      omega
    intro i _ hne
    apply hout
    by_contra hin
    apply hne
    rw [Nat.mul_comm] at hdiv
    exact Nat.div_eq_of_lt_le (by omega) (by rw [Nat.add_mul]; omega)

theorem Confined.truncate {d : Dir} (h : Confined cfg d d') {e : ℕ} (he : e≤d'.size)
    (hsize : d'.size≤d.size) : Confined cfg d (d'.truncate e) := by
  have hbs := cfg.blocksize_bounds
  rcases h with ⟨k,hk,-,hsame⟩ | ⟨hgrown,-⟩
  · refine .inl ⟨k,hk,Nat.le_trans he hsize,fun i hi hne => ?_⟩
    change i<e at hi
    have hcut : (d'.truncate e).data i=d'.data i := if_pos (by omega)
    rw [hcut]
    exact hsame i (by omega) hne
  · omega

/-- Everything a call needs from outside the directory is there. -/
structure Calm (env : Env) : Prop where
  bad : env.bad=[]
  authorized : env.authorized=true
  vget : env.vget=true
  written : env.written=true

theorem quiet_calm : Calm quiet := ⟨rfl,rfl,rfl,rfl⟩

/-- One block without room for the name, on a file system with indexed directories. -/
def Converts (cfg : Config) (d : Dir) (name : Name) : Prop :=
  cfg.dirIndex=true ∧ d.size=cfg.blocksize ∧ (d.room cfg name).2=0

variable {d : Dir} {rs : List Record}

theorem Dir.notfound_chosen (cfg : Config) (d : Dir) (op : NameiOp) (env : Env) (s : Search)
    (h : (d.notfound cfg op env s).2=.ejustreturn) :
    ((d.notfound cfg op env s).1.offset,(d.notfound cfg op env s).1.count)=
      s.slot.chosen cfg d.size := by
  unfold Dir.notfound at h ⊢
  unfold SearchSlot.chosen
  dsimp only at h ⊢
  split at h
  · split at h
    · rename_i hw ha
      rw [if_pos hw,if_pos ha]
      split <;> simp_all
    · cases h
  · cases h

theorem absent_of_entries {name : List UInt8} (h : name∉(entriesOf rs).map Prod.fst) : ∀ r∈rs,r.hit name=false := by
  intro r hr
  by_contra hhit
  obtain ⟨hl,hn⟩ := Bool.and_eq_true_iff.mp (Bool.not_eq_false _ ▸ hhit)
  apply h
  refine List.mem_map.mpr ⟨(r.name,r.inode),?_,by simpa using hn⟩
  exact List.mem_map.mpr ⟨r,List.mem_filter.mpr ⟨hr,hl⟩,rfl⟩

theorem Layout.lookupi_create (h : Layout cfg d rs) (hsmall : d.size<2147483648)
    (habs : ∀ r∈rs,r.hit name.bytes=false)
    (hlink : d.nlink≠0) (vpp : Bool) (henv : Calm env) :
    ∃ d1,d.lookupi cfg .create name vpp env=.ok (d1,.ejustreturn) ∧ Looked cfg d d1 ∧
      d1.lastnamei=.create ∧ NewSlot cfg rs (dirRecLen name.bytes.length) d1 ∧
      (d1.offset,d1.count)=roomFor cfg (dirRecLen name.bytes.length) rs := by
  obtain ⟨d1,e,hl,hlook,hlast,hout⟩ := h.lookupi_outcome (by simp : NameiOp.create≠.lookup)
    name vpp env
  cases hout with
  | found _ _ _ hit _ _ _ _ _ _ => exact (hit.not_absent habs).elim
  | big hbig _ _ => exact absurd (hlook.size ▸ hbig) (Nat.not_le.mpr hsmall)
  | unread _ hbad => exact absurd henv.bad hbad
  | absent _ _ hslot hend =>
    obtain rfl := hend rfl (hlook.nlink ▸ hlink) henv.authorized
    refine ⟨d1,hl,hlook,hlast,(hslot rfl).2,?_⟩
    obtain ⟨s,hs,hroom⟩ := h.search_roomFor hsmall (by rfl : NameiOp.create.wantsSlot=true) habs
    have hsearch : Dir.search cfg { d with lastnamei := .create } .create name.bytes []=
        .notfound s := hs
    unfold Dir.lookupi at hl
    dsimp only at hl
    rw [henv.bad,hsearch] at hl
    have hchosen := Dir.notfound_chosen cfg { d with lastnamei := .create } .create env s
    rw [Except.ok.inj hl] at hchosen
    exact (hchosen rfl).trans hroom

/-- What a slot that a lookup left says about `i_offset` and `i_count`. -/
theorem NewSlot.bounds {need : ℕ} (hs : NewSlot cfg rs need d) (h : Layout cfg d rs) :
    d.count=0 ∧ d.offset=d.size ∨ (0<d.count ∧ d.offset+d.count≤d.size) ∧ need≤d.count := by
  rcases hs with hs | hs
  · exact .inl hs
  obtain ⟨before,run,behind,hat⟩ := hs.slot
  refine .inr ⟨hat.count_pos h,?_⟩
  have hroom := hat.room
  have hlen := hat.length
  have hle : total Record.free run≤total recLen run := by
    clear hroom hlen hat
    induction run with
    | nil => exact Nat.le_refl 0
    | cons r run ih =>
      exact Nat.add_le_add (Nat.sub_le _ _) ih
  omega

theorem Dir.insert_indexed (hc : d.count=0) (ho : d.offset=d.size)
    (hi : cfg.dirIndex=true) (hsize : d.size=cfg.blocksize) (henv : Calm env) :
    d.insert cfg name ip env=.error .indexed := by
  have hbs := cfg.blocksize_bounds
  unfold Dir.insert
  rw [if_pos hc,if_neg (by rw [ho,hsize,Nat.mod_self]; simp),
    if_pos ⟨by rw [hsize]; exact Nat.div_self (by omega),hi⟩,if_neg (by simp [henv.bad])]

theorem Layout.wellFormed (h : Layout cfg d rs) (hn : ((entriesOf rs).map Prod.fst).Nodup) : WellFormed cfg d ∧ d.entries=entriesOf rs := by
  have hent : d.entries=entriesOf rs := by rw [Dir.entries,h.records]
  exact ⟨⟨h.records.symm ▸ h,hent ▸ hn⟩,hent⟩

theorem Layout.insert_finished (h : Layout cfg d rs) (hsmall : d.size<2147483648)
    (hn : ((entriesOf rs).map Prod.fst).Nodup)
    (habs : ∀ r∈rs,r.hit name.bytes=false) (hs : NewSlot cfg rs (dirRecLen name.bytes.length) d)
    (ip : Target cfg) (henv : Calm env)
    (hno : ¬(cfg.dirIndex=true ∧ d.size=cfg.blocksize ∧ d.count=0)) :
    ∃ d' t,d.insert cfg name ip env=.ok (d',.ok,t) ∧ let d'' := (t.map d'.truncate).getD d'
      WellFormed cfg d'' ∧ d''.entries.Perm ((name.bytes,ip.number)::entriesOf rs) ∧
        Confined cfg d d'' := by
  rcases h.insert_new hs ip env with ⟨-,hc,hone,hi⟩ | ⟨e,-,-,hfail⟩ |
      ⟨d',rs',t,he,hlay,hins,-,-,hcut⟩
  · refine absurd ⟨hi,?_,hc⟩ hno
    obtain ⟨q,hq⟩ := h.blocks
    rw [hq,Nat.mul_div_cancel_left _ (by have := cfg.blocksize_bounds; omega)] at hone
    rw [hq,hone,Nat.mul_one]
  · rcases hfail with hbad | hw | hbig
    · exact absurd henv.bad hbad
    · rw [henv.written] at hw
      cases hw
    · exact absurd hbig (Nat.not_le.mpr hsmall)
  refine ⟨d',t,he,?_⟩
  have hperm := hins.entries
  have hnames := nodup_of_perm hperm habs hn
  have hslot : d.count=0 ∧ d.offset=d.size ∨ 0<d.count ∧ d.offset+d.count≤d.size :=
    (hs.bounds h).imp id And.left
  obtain ⟨hconf,hgrow⟩ := Dir.insert_confined h.blocks hslot he
  cases t with
  | none =>
    obtain ⟨h1,h2⟩ := hlay.wellFormed hnames
    exact ⟨h1,h2 ▸ hperm,hconf⟩
  | some e =>
    have hc := hcut e rfl
    obtain ⟨xs,-,-,-,hlay',hent⟩ := hlay.truncate_dead hc.block hc.le hc.dead
    obtain ⟨h1,h2⟩ := hlay'.wellFormed (hent ▸ hnames)
    refine ⟨h1,?_,hconf.truncate hc.le (hgrow (by simp))⟩
    change (d'.truncate e).entries.Perm _
    rw [h2,hent]
    exact hperm

/-- A slot that was found is used, else the search is repeated. -/
theorem WellFormed.create_slot (h : WellFormed cfg d) (hsmall : d.size<2147483648)
    (habs : name.bytes∉d.entries.map Prod.fst)
    (hlink : d.nlink≠0) (ip : Target cfg) (vpp : Bool) (henv : Calm env)
    (henv' : Calm env') :
    ∃ d1 d2,d.lookupi cfg .create name vpp env=.ok (d1,.ejustreturn) ∧
      d1.enter cfg .create name ip env'=d2.insert cfg name ip env' ∧
      d2.data=d.data ∧ d2.size=d.size ∧ Layout cfg d2 d.records ∧
      NewSlot cfg d.records (dirRecLen name.bytes.length) d2 ∧
      (d2.offset,d2.count)=d.room cfg name := by
  have hno := absent_of_entries habs
  obtain ⟨d1,hl1,hlook1,hlast,hslot1,hroom1⟩ := h.layout.lookupi_create hsmall hno hlink vpp henv
  have hlay1 := hlook1.layout h.layout
  by_cases hcount : dirRecLen name.bytes.length≤d1.count
  · refine ⟨d1,d1,hl1,?_,hlook1.data,hlook1.size,hlay1,hslot1,hroom1⟩
    unfold Dir.enter
    rw [if_pos ⟨hlast,hcount⟩]
  obtain ⟨d2,hl2,hlook2,-,hslot2,hroom2⟩ := hlay1.lookupi_create (hlook1.size ▸ hsmall) hno
    (hlook1.nlink ▸ hlink) false henv'
  refine ⟨d1,d2,hl1,?_,hlook2.data.trans hlook1.data,hlook2.size.trans hlook1.size,
    hlook2.layout hlay1,hslot2,hroom2⟩
  unfold Dir.enter
  rw [if_neg (fun hc => hcount hc.2),hl2]
  rfl

theorem WellFormed.create_indexed (h : WellFormed cfg d) (hsmall : d.size<2147483648)
    (habs : name.bytes∉d.entries.map Prod.fst)
    (hlink : d.nlink≠0) (ip : Target cfg) (vpp : Bool) (henv : Calm env)
    (henv' : Calm env') (hconv : Converts cfg d name) :
    ∃ d1,d.lookupi cfg .create name vpp env=.ok (d1,.ejustreturn) ∧
      d1.direnter cfg .create name ip env'=.error .indexed := by
  obtain ⟨d1,d2,hl,henter,-,hsize,hlay,hslot,hroom⟩ :=
    h.create_slot hsmall habs hlink ip vpp henv henv'
  obtain ⟨hi,hone,hzero⟩ := hconv
  have hc : d2.count=0 := by
    rw [← hroom] at hzero
    exact hzero
  have ho : d2.offset=d2.size := by
    rcases hslot.bounds hlay with hb | hb
    · exact hb.2
    · omega
  refine ⟨d1,hl,?_⟩
  unfold Dir.direnter
  rw [henter,Dir.insert_indexed hc ho hi (hsize.trans hone) henv']

/-- The entry is added, in one block or in one more, unless the directory has one block without room
and is to be indexed, or `(doff_t)i_size` is negative. -/
theorem direnter_after_create (cfg : Config) (d : Dir) (name : Name) (ip : Target cfg) (vpp : Bool)
    (env env' : Env) (h : WellFormed cfg d) (hsmall : d.size<2147483648)
    (habs : name.bytes∉d.entries.map Prod.fst) (hlink : d.nlink≠0) (henv : Calm env) (henv' : Calm env') (hconv : ¬Converts cfg d name) :
    ∃ d1 d',d.lookupi cfg .create name vpp env=.ok (d1,.ejustreturn) ∧
      d1.direnter cfg .create name ip env'=.ok (d',.ok) ∧ WellFormed cfg d' ∧
      d'.entries.Perm ((name.bytes,ip.number)::d.entries) ∧ Confined cfg d d' := by
  obtain ⟨d1,d2,hl,henter,hdata,hsize,hlay,hslot,hroom⟩ :=
    h.create_slot hsmall habs hlink ip vpp henv henv'
  obtain ⟨d',t,he,hwf,hperm,hconf⟩ := hlay.insert_finished (hsize ▸ hsmall) h.names (absent_of_entries habs) hslot
    ip henv' (fun hc => hconv ⟨hc.1,hsize ▸ hc.2.1,by rw [← hroom]; exact hc.2.2⟩)
  have hback : Confined cfg d2 ((t.map d'.truncate).getD d') →
      Confined cfg d ((t.map d'.truncate).getD d') := by
    unfold Confined
    rw [hdata,hsize]
    exact id
  refine ⟨d1,(t.map d'.truncate).getD d',hl,?_,hwf,hperm,hback hconf⟩
  unfold Dir.direnter
  rw [henter,he]
  cases t <;> rfl

theorem direnter_after_create_small :
    ∃ d1 d',smallDir.lookupi smallConfig .create nameB true quiet=.ok (d1,.ejustreturn) ∧
      d1.direnter smallConfig .create nameB ⟨13,1,by decide,by decide⟩ quiet=.ok (d',.ok) ∧
      WellFormed smallConfig d' ∧ d'.entries.Perm ((nameB.bytes,13)::smallDir.entries) ∧
      Confined smallConfig smallDir d' := by
  refine direnter_after_create smallConfig smallDir nameB ⟨13,1,by decide,by decide⟩ true quiet
    quiet smallDir_sound.wf (by decide) ?_ (by decide) quiet_calm quiet_calm (fun hc => by cases hc.1)
  decide

theorem Dir.insert_big (hc : d.count=0) (ho : d.offset=d.size)
    (hblocks : cfg.blocksize ∣ d.size) (hbig : 2147483648 ≤ d.size) :
    d.insert cfg name ip env=.ok (d,.enospc,none) := by
  have hbs := cfg.blocksize_bounds
  have hone : d.size/cfg.blocksize≠1 := by
    intro h
    have := Nat.div_mul_cancel hblocks
    rw [h] at this
    omega
  unfold Dir.insert
  rw [if_pos hc,if_neg (by rw [ho,Nat.mod_eq_zero_of_dvd hblocks]; simp),if_neg (fun h => hone h.1),
    if_neg (fun h => absurd h.2 (by omega))]

/-- From 2^31 bytes on no slot is found, and nothing can be written at the end. -/
theorem WellFormed.create_big (h : WellFormed cfg d) (hbig : 2147483648 ≤ d.size) (ip : Target cfg)
    {vpp : Bool} {d1 : Dir}
    (hl : d.lookupi cfg .create name vpp env=.ok (d1,.ejustreturn)) :
    d1.direnter cfg .create name ip env'≠.ok (d',.ok) := by
  have hne : NameiOp.create≠.lookup := by simp
  obtain ⟨d2,e,hl2,hlook,-,-,hslot⟩ := h.layout.lookupi_big hbig hne name vpp env
  rw [hl] at hl2
  cases hl2
  obtain ⟨hc,-⟩ := hslot rfl
  obtain ⟨d3,e,hl3,hlook3,-,hno,hslot3⟩ := (hlook.layout h.layout).lookupi_big
    (hlook.size.symm ▸ hbig) hne name false env'
  have hpos := dirRecLen_bounds name.bytes.length
  unfold Dir.direnter Dir.enter
  rw [if_neg (by omega),hl3]
  dsimp only
  by_cases he : e=.ejustreturn
  · obtain ⟨hc3,ho3⟩ := hslot3 he
    have hsize := hlook3.size.trans hlook.size
    rw [if_pos (.inr he),Dir.insert_big hc3 ho3 (hsize ▸ h.layout.blocks) (hsize ▸ hbig)]
    simp
  · rw [if_neg (fun hor => hor.elim hno he)]
    simpa using fun _ => hno

/-- The first block is that of `smallDir`, and a free record fills each of the others. -/
def longData : Bytes := fun i => if i<1024 then smallDir.data i else if i%1024=5 then 4 else 0

def longDir (n : ℕ) : Dir := { smallDir with data := longData, size := (n+1)*1024 }

theorem longData_free {o : ℕ} (ho : 1024 ≤ o) (hmod : o%1024=0) :
    readRecord longData o=⟨0,1024,0,[]⟩ := by
  have hbyte (i : ℕ) (hi : i<8) : longData (o+i)=if i=5 then 4 else 0 := by
    unfold longData
    rw [if_neg (by omega),show (o+i)%1024=i by omega]
  have h0 := hbyte 0 (by decide)
  rw [Nat.add_zero] at h0
  simp [readRecord,Bytes.le32,Bytes.le16,Bytes.slice,Nat.add_assoc,h0,hbyte]

theorem total_free (n : ℕ) : total recLen (List.replicate n (⟨0,1024,0,[]⟩ : Record))=n*1024 := by
  induction n with
  | zero => rfl
  | succ n ih =>
    rw [List.replicate_succ,total_cons,ih,Nat.succ_mul,Nat.add_comm]

theorem longDir_layout (n : ℕ) :
    Layout smallConfig (longDir n) (smallRecords++List.replicate n ⟨0,1024,0,[]⟩) := by
  have hfree (o : ℕ) (ho : 1024 ≤ o) (hmod : o%1024=0) : Tiles recLen (readRecord longData)
      (Record.Ok smallConfig) o (List.replicate n ⟨0,1024,0,[]⟩) := by
    induction n generalizing o with
    | zero => trivial
    | succ n ih =>
      have hb : smallConfig.blocksize=1024 := rfl
      refine ⟨longData_free ho hmod,⟨by decide,by decide,by decide,?_,by decide,by simp [Record.live]⟩,
        ih _ (by dsimp only; omega) (by dsimp only; omega)⟩
      rw [hb]
      dsimp only
      omega
  have hfirst : Tiles recLen (readRecord longData) (Record.Ok smallConfig) 0 smallRecords := by
    decide +kernel
  refine ⟨(tiles_append _ _ _).mpr ⟨hfirst,hfree _ (by decide) (by decide)⟩,?_,?_⟩
  · rw [total_append,total_free]
    change 1024+n*1024=(n+1)*1024
    omega
  · exact Nat.dvd_mul_left _ _

theorem longDir_wellFormed (n : ℕ) :
    WellFormed smallConfig (longDir n) ∧ (longDir n).entries=entriesOf smallRecords := by
  have hent : entriesOf (smallRecords++List.replicate n ⟨0,1024,0,[]⟩)=entriesOf smallRecords := by
    simp [entriesOf,Record.live]
  have h := (longDir_layout n).wellFormed (by rw [hent]; decide)
  exact ⟨h.1,h.2.trans hent⟩

def indexConfig : Config := { smallConfig with dirIndex := true }

/-- With an index `ext2_direnter` calls `make_indexed_dir`, which appends two blocks. Without links
or permission the lookup says so, on a full disk the write, and at 2^31 bytes no entry is made. -/
theorem crowded_becomes_indexed :
    let d := Htree.leafDir indexConfig Htree.crowdedBlock
    let name := Htree.dentryLong.name
    let ip : Target smallConfig := ⟨17,1,by decide,by decide⟩
    (WellFormed indexConfig d ∧ name.bytes∉d.entries.map Prod.fst ∧ d.nlink≠0 ∧
      d.size=indexConfig.blocksize ∧
      (∃ d1,d.lookupi indexConfig .create name true quiet=.ok (d1,.ejustreturn) ∧
        d1.direnter indexConfig .create name ⟨17,1,by decide,by decide⟩ quiet=.error .indexed) ∧
      ∀ fresh1 fresh2,(Htree.makeIndexedDir indexConfig ⟨0,0,0,0⟩ 2 d.data Htree.dentryLong
        fresh1 fresh2).blocks=3) ∧
    (({ smallDir with nlink := 0 }.lookupi smallConfig .create nameB true quiet).toOption.map
      Prod.snd=some .enoent ∧
    (smallDir.lookupi smallConfig .create nameB true { quiet with authorized := false }).toOption.map
      Prod.snd=some .eacces ∧
    ((d.lookupi smallConfig .create name true quiet).toOption.bind (fun x => (x.1.direnter smallConfig
      .create name ip { quiet with written := false }).toOption)).map Prod.snd=some .enospc) ∧
    WellFormed smallConfig (longDir 2097151) ∧ nameB.bytes∉(longDir 2097151).entries.map Prod.fst ∧
      (longDir 2097151).nlink≠0 ∧ ∀ d1 d',(longDir 2097151).lookupi smallConfig .create nameB true
        quiet=.ok (d1,.ejustreturn) → d1.direnter smallConfig .create nameB ip quiet≠.ok (d',.ok) := by
  intro d name ip
  have hleaf : Htree.Leaf indexConfig Htree.crowdedBlock Htree.crowdedRecords :=
    Htree.layRecords_leaf (by decide +kernel) (by decide +kernel) (by decide +kernel)
  have hlay : Layout indexConfig d Htree.crowdedRecords := Htree.leaf_iff_layout.mp hleaf
  have hwf : WellFormed indexConfig d := (hlay.wellFormed (by decide +kernel)).1
  have habs : name.bytes∉d.entries.map Prod.fst := by
    decide +kernel
  have hconv : Converts indexConfig d name := by
    refine ⟨rfl,rfl,?_⟩
    decide +kernel
  obtain ⟨hlong,hent⟩ := longDir_wellFormed 2097151
  refine ⟨⟨hwf,habs,by decide,rfl,hwf.create_indexed (by decide) habs (by decide) _ true quiet_calm
    quiet_calm hconv,fun _ _ => rfl⟩,⟨by decide +kernel,by decide +kernel,by decide +kernel⟩,hlong,
    ?_,by decide,fun d1 d' hl => hlong.create_big (Nat.le_refl _) ip hl⟩
  rw [hent]
  decide

theorem find_editName_same (name : List UInt8) (f : DCache → DCache) (hf : ∀ c,(f c).name=c.name)
    (cs : List DCache) :
    (editName name (fun c => some (f c)) cs).find? (fun c => c.name=name)=
      (cs.find? (fun c => c.name=name)).map f := by
  induction cs with
  | nil => rfl
  | cons c cs ih =>
    by_cases hc : c.name=name
    · simp [editName,hc,hf]
    · simp [editName,hc,ih]

theorem Dir.dcacheget_save (d : Dir) (name : Name) :
    ∃ c,(d.dcachesave name).dcacheget name=some c ∧ c.offset=d.offset ∧ c.count=d.count ∧
      c.reclen=d.reclen := by
  unfold Dir.dcachesave
  cases hg : d.dcacheget name with
  | none =>
    exact ⟨DCache.fill d ⟨name.bytes,0,0,0,0⟩,by simp [Dir.dcacheget,DCache.fill],rfl,rfl,rfl⟩
  | some c =>
    refine ⟨c.fill d,?_,rfl,rfl,rfl⟩
    have hf := find_editName_same name.bytes (DCache.fill d) (fun _ => rfl) d.dcache
    simp only [Option.isSome_some,if_true]
    unfold Dir.dcacheget at hg ⊢
    rw [hf,hg]
    rfl

/-- The entry, and nothing else, is gone, if the search comes to it. -/
theorem dirremove_after_delete (cfg : Config) (d : Dir) (name : Name) (env env' : Env)
    (h : WellFormed cfg d) (hsmall : d.size<2147483648)
    (hmem : name.bytes∈d.entries.map Prod.fst) (henv : Calm env) (henv' : Calm env') :
    ∃ d1 d',d.lookup cfg .delete name env=.ok (d1,.ok) ∧
      d1.dirremove cfg name env'=.ok (d',.ok) ∧ WellFormed cfg d' ∧
      d'.entries=d.entries.filter (fun x => x.1≠name.bytes) := by
  obtain ⟨d1,e,hl,hlook,-,hout⟩ := h.layout.lookupi_outcome (by simp : NameiOp.delete≠.lookup)
    name true env
  cases hout with
  | absent hno _ _ _ => exact absurd hmem (entries_absent hno)
  | big hbig _ _ => exact absurd (hlook.size ▸ hbig) (Nat.not_le.mpr hsmall)
  | unread _ hbad => exact absurd henv.bad hbad
  | found pre r post hit _ _ _ hloc _ hok =>
    obtain rfl := hok rfl henv.authorized henv.vget
    obtain ⟨c,hc,ho,hcount,hr⟩ := d1.dcacheget_save name
    have hlocated : Located cfg d.records pre r post name.bytes c.offset c.count c.reclen := by
      rw [ho,hcount,hr]
      exact hloc rfl rfl
    have hlay := hlook.layout h.layout
    have hlay' : Layout cfg (((d1.dcachesave name).copydcache c).dcacherem name) d.records :=
      ⟨hlay.tiles,hlay.size_eq,hlay.blocks⟩
    obtain ⟨m,e',he,hgood,hcase⟩ := hlay'.erase_located hlocated env'
    obtain rfl := hgood henv'.bad
    rcases hcase with ⟨-,rs',hlay'',hrs⟩ | ⟨hne,-⟩
    · have hent : d.entries=entriesOf pre++(name.bytes,r.inode)::entriesOf post := hit.entries
      have hfilter := filter_of_nodup (hent ▸ h.names)
      rw [← hent] at hfilter
      have hnames : ((entriesOf rs').map Prod.fst).Nodup := by
        rw [hrs,← hfilter]
        exact h.names.sublist (List.filter_sublist.map _)
      obtain ⟨hwf,hnew⟩ := hlay''.wellFormed hnames
      refine ⟨d1.dcachesave name,_,?_,?_,hwf,?_⟩
      · unfold Dir.lookup
        rw [hl]
        rfl
      · unfold Dir.dirremove Dir.recall
        rw [hc]
        exact he
      · rw [hnew,hrs]
        exact hfilter.symm
    · exact absurd rfl hne

theorem dirremove_after_delete_small :
    ∃ d1 d',smallDir.lookup smallConfig .delete nameX quiet=.ok (d1,.ok) ∧
      d1.dirremove smallConfig nameX quiet=.ok (d',.ok) ∧ WellFormed smallConfig d' ∧
      d'.entries=smallDir.entries.filter (fun x => x.1≠nameX.bytes) := by
  refine dirremove_after_delete smallConfig smallDir nameX quiet quiet smallDir_sound.wf (by decide)
    ?_ quiet_calm quiet_calm
  decide

/-- In 2^31 bytes the lookup does not find the name; without permission it refuses to. -/
theorem delete_unseen :
    WellFormed smallConfig (longDir 2097151) ∧
    nameX.bytes∈(longDir 2097151).entries.map Prod.fst ∧
    (∀ d1,(longDir 2097151).lookup smallConfig .delete nameX quiet≠.ok (d1,.ok)) ∧
    (smallDir.lookup smallConfig .delete nameX { quiet with authorized := false }).toOption.map
      Prod.snd=some .eacces := by
  obtain ⟨hlong,hent⟩ := longDir_wellFormed 2097151
  refine ⟨hlong,by rw [hent]; decide,fun d1 => ?_,by decide +kernel⟩
  obtain ⟨d2,e,hl,-,-,hno,-⟩ := hlong.layout.lookupi_big (Nat.le_refl _)
    (by simp : NameiOp.delete≠.lookup) nameX true quiet
  unfold Dir.lookup
  rw [hl]
  dsimp only
  split <;> simpa using fun _ => hno

end Ext2fsX.Directory
