import Ext2fsX.Directory.Insertion

namespace Ext2fsX.Directory

open Framework Record

variable {cfg : Config}

/-- The slot is a run of whole records of one block with enough room. -/
def slotFits (cfg : Config) (rs : List Record) (need offset count : ℕ) : Bool :=
  match cut recLen offset rs with
  | none => false
  | some (_,rest) =>
    match cut recLen count rest with
    | none => false
    | some (run,_) =>
      decide (need≤total Record.free run ∧ offset%cfg.blocksize+count ≤ cfg.blocksize ∧ run≠[])

def deadFrom (rs : List Record) (o : ℕ) : Bool :=
  match cut recLen o rs with
  | none => false
  | some (_,ys) => ys.all (fun r => !r.live)

def Dir.usable (cfg : Config) (d : Dir) (need : ℕ) : Bool :=
  slotFits cfg d.records need d.offset d.count &&
    (decide (d.endoff=0 ∨ d.size≤d.endoff) ||
      (decide (d.endoff%cfg.blocksize=0 ∧ d.offset+d.count≤d.endoff) &&
        deadFrom d.records d.endoff))

variable {rs : List Record}

theorem slotAt_of_slotFits {need offset count : ℕ} (h : slotFits cfg rs need offset count=true) :
    ∃ before run behind,SlotAt cfg rs need offset count before run behind := by
  unfold slotFits at h
  cases h1 : cut recLen offset rs with
  | none => simp [h1] at h
  | some p =>
    obtain ⟨before,rest⟩ := p
    rw [h1] at h
    dsimp only at h
    cases h2 : cut recLen count rest with
    | none => simp [h2] at h
    | some q =>
      obtain ⟨run,behind⟩ := q
      rw [h2] at h
      obtain ⟨hroom,hblock,hne⟩ := of_decide_eq_true h
      obtain ⟨rfl,hstart⟩ := cut_eq_some h1
      obtain ⟨rfl,hcount⟩ := cut_eq_some h2
      exact ⟨before,run,behind,by simp,hstart,hcount,hroom,hblock,hne⟩

theorem deadFrom_spec {o : ℕ} (h : deadFrom rs o=true) : DeadFrom rs o := by
  unfold deadFrom at h
  cases hc : cut recLen o rs with
  | none => simp [hc] at h
  | some p =>
    obtain ⟨xs,ys⟩ := p
    rw [hc] at h
    obtain ⟨hs,ht⟩ := cut_eq_some hc
    exact ⟨xs,ys,hs,ht,by simpa using h⟩

variable {d : Dir}

theorem usable_spec (hl : Layout cfg d rs) {need : ℕ} (h : d.usable cfg need=true) : Usable cfg rs need d := by
  unfold Dir.usable at h
  rw [hl.records] at h
  obtain ⟨h1,h2⟩ := Bool.and_eq_true_iff.mp h
  refine ⟨slotAt_of_slotFits h1,fun hne hlt => ?_⟩
  rcases Bool.or_eq_true_iff.mp h2 with h2 | h2
  · have := of_decide_eq_true h2
    omega
  · obtain ⟨h3,h4⟩ := Bool.and_eq_true_iff.mp h2
    have h3 := of_decide_eq_true h3
    exact ⟨Nat.dvd_of_mod_eq_zero h3.1,h3.2,deadFrom_spec h4⟩

/-- The directory with what the other calls rely on. -/
structure Sound (cfg : Config) (d : Dir) : Prop where
  wf : WellFormed cfg d
  diroff : cfg.blocksize ∣ d.diroff

theorem Looked.layout {d d' : Dir} (h : Looked cfg d d') (hl : Layout cfg d rs) : Layout cfg d' rs := by
  refine ⟨?_,?_,?_⟩
  · rw [h.data]
    exact hl.tiles
  · rw [h.size]
    exact hl.size_eq
  · rw [h.size]
    exact hl.blocks

theorem Layout.sound (h : Layout cfg d rs) (hn : ((entriesOf rs).map Prod.fst).Nodup)
    (hd : cfg.blocksize ∣ d.diroff) :
    Sound cfg d ∧ d.entries=entriesOf rs := by
  have he : d.entries=entriesOf rs := by rw [Dir.entries,h.records]
  exact ⟨⟨⟨h.records.symm ▸ h,he ▸ hn⟩,hd⟩,he⟩

theorem Sound.lookup (h : Sound cfg d) (op : NameiOp) (name : Name) (env : Env) :
    ∃ d' e,d.lookup cfg op name env=.ok (d',e) ∧ Sound cfg d' ∧ d'.entries=d.entries := by
  obtain ⟨d',e,hl,hlook⟩ := h.wf.layout.lookupi_looked h.diroff op name true env
  have hlay := hlook.layout h.wf.layout
  unfold Dir.lookup
  rw [hl]
  dsimp only
  split
  · refine ⟨_,_,rfl,?_⟩
    exact Layout.sound (d := d'.dcachesave name) ⟨hlay.tiles,hlay.size_eq,hlay.blocks⟩ h.wf.names
      (hlook.diroff h.diroff)
  · exact ⟨_,_,rfl,hlay.sound h.wf.names (hlook.diroff h.diroff)⟩

def Dir.fresh (cfg : Config) (d : Dir) (name : Name) : Bool :=
  match d.dcacheget name with
  | none => true
  | some c => locates cfg name.bytes d.records c.offset c.count c.reclen

/-- There is an entry of this name; the cache, if it has the name, knows its offset, and if not, the
search comes to it: the directory has less than 2^31 bytes. -/
def Dir.freshOffset (cfg : Config) (d : Dir) (name : Name) : Bool :=
  match locate cfg name.bytes 0 0 d.records with
  | none => false
  | some (o,_,_) =>
    match d.dcacheget name with
    | none => decide (d.size<2147483648)
    | some c => decide (c.offset=o)

variable {name : Name}

variable {rs pre post : List Record}

theorem Layout.erase_sound {r : Record} (h : Layout cfg d rs)
    (hn : ((entriesOf rs).map Prod.fst).Nodup) (hd : cfg.blocksize ∣ d.diroff)
    (hl : Located cfg rs pre r post name.bytes d.offset d.count d.reclen) (env : Env) :
    ∃ d' e,d.erase cfg env=.ok (d',e) ∧ Sound cfg d' ∧ d'.entries=if e=.ok then
        (entriesOf rs).filter (fun x => x.1≠name.bytes)
      else entriesOf rs := by
  obtain ⟨m,e,he,-,hcase⟩ := h.erase_located hl env
  have hent := hl.hit.entries
  refine ⟨_,e,he,?_⟩
  rcases hcase with ⟨rfl,rs',hlay,hrs⟩ | ⟨hne,rfl⟩
  · have hfilter := filter_of_nodup (hent ▸ hn)
    rw [← hent] at hfilter
    have hnames : ((entriesOf rs').map Prod.fst).Nodup := by
      rw [hrs,← hfilter]
      exact hn.sublist (List.filter_sublist.map _)
    obtain ⟨h1,h2⟩ := hlay.sound hnames hd
    exact ⟨h1,by rw [h2,hrs,if_pos rfl,hfilter]⟩
  · obtain ⟨h1,h2⟩ := h.sound hn hd
    exact ⟨h1,by rw [if_neg hne]; exact h2⟩

theorem Sound.dirremove (h : Sound cfg d) (hf : d.fresh cfg name=true) (env : Env) :
    ∃ d' e,d.dirremove cfg name env=.ok (d',e) ∧ Sound cfg d' ∧
      d'.entries=if e=.ok then d.entries.filter (fun x => x.1≠name.bytes) else d.entries := by
  have hlay := h.wf.layout
  unfold Dir.dirremove Dir.recall
  unfold Dir.fresh at hf
  cases hc : d.dcacheget name with
  | some c =>
    rw [hc] at hf
    obtain ⟨pre,r,post,hl⟩ := locates_iff.mp hf
    have hlay' : Layout cfg ((d.copydcache c).dcacherem name) d.records :=
      ⟨hlay.tiles,hlay.size_eq,hlay.blocks⟩
    exact hlay'.erase_sound h.wf.names h.diroff hl env
  | none =>
    obtain ⟨d1,e1,hl,hlook,-,hout⟩ := hlay.lookupi_outcome (by simp : NameiOp.delete≠.lookup)
      name false env
    rw [hl]
    dsimp only
    have hlay1 := hlook.layout hlay
    have hdir := hlook.diroff h.diroff
    split
    · rename_i hok
      subst hok
      cases hout with
      | found pre r post hit ho hi hr hloc hne _ =>
        exact hlay1.erase_sound h.wf.names hdir (hloc rfl rfl) env
      | absent hno hne _ _ => exact absurd rfl hne
      | big _ hne _ => exact absurd rfl hne
      | unread hne _ => cases hne
    · rename_i hne
      obtain ⟨h1,h2⟩ := hlay1.sound h.wf.names hdir
      exact ⟨d1,e1,rfl,h1,by rw [if_neg hne]; exact h2⟩

theorem Layout.rewrite_sound {r : Record} (h : Layout cfg d rs)
    (hn : ((entriesOf rs).map Prod.fst).Nodup) (hd : cfg.blocksize ∣ d.diroff)
    (hit : FirstHit name.bytes rs pre r post) (hoff : d.offset=total recLen pre)
    (ip : Target cfg) (env : Env) :
    ∃ d' e,d.rewrite cfg ip env=.ok (d',e) ∧ Sound cfg d' ∧ d'.entries=if e=.ok then
          (entriesOf rs).map (fun x => if x.1=name.bytes then (name.bytes,ip.number) else x)
        else entriesOf rs := by
  obtain ⟨m,e,he,-,hcase⟩ := h.rewrite_hit hit hoff ip env
  have hent := hit.entries
  refine ⟨_,e,he,?_⟩
  rcases hcase with ⟨rfl,rs',hlay,hrs⟩ | ⟨hne,rfl⟩
  · have hnames : ((entriesOf rs').map Prod.fst).Nodup := by
      rw [hent] at hn
      rw [hrs]
      simpa using hn
    obtain ⟨h1,h2⟩ := hlay.sound hnames hd
    refine ⟨h1,?_⟩
    rw [h2,hrs,if_pos rfl,hent,map_of_nodup (hent ▸ hn)]
  · obtain ⟨h1,h2⟩ := h.sound hn hd
    exact ⟨h1,by rw [if_neg hne]; exact h2⟩

theorem Sound.dirrewrite (h : Sound cfg d) (hf : d.freshOffset cfg name=true) (ip : Target cfg)
    (env : Env) :
    ∃ d' e,d.dirrewrite cfg name ip env=.ok (d',e) ∧ Sound cfg d' ∧ d'.entries=if e=.ok then
          d.entries.map (fun x => if x.1=name.bytes then (name.bytes,ip.number) else x)
        else d.entries := by
  have hlay := h.wf.layout
  unfold Dir.freshOffset at hf
  cases hloc : locate cfg name.bytes 0 0 d.records with
  | none => simp [hloc] at hf
  | some x =>
    obtain ⟨pre,r,post,hit⟩ := firstHit_of_locate hloc
    rw [hit.locate cfg] at hf
    unfold Dir.dirrewrite Dir.recall
    cases hc : d.dcacheget name with
    | some c =>
      rw [hc] at hf
      have hoff : c.offset=total recLen pre := of_decide_eq_true hf
      have hlay' : Layout cfg ((d.copydcache c).dcacherem name) d.records :=
        ⟨hlay.tiles,hlay.size_eq,hlay.blocks⟩
      exact hlay'.rewrite_sound h.wf.names h.diroff hit hoff ip env
    | none =>
      obtain ⟨d1,e1,hl,hlook,-,hout⟩ := hlay.lookupi_outcome (by simp : NameiOp.rename≠.lookup)
        name false env
      rw [hl]
      dsimp only
      have hlay1 := hlook.layout hlay
      have hdir := hlook.diroff h.diroff
      split
      · rename_i hok
        cases hout with
        | found pre r post hit ho hi hr _ hne _ =>
          exact hlay1.rewrite_sound h.wf.names hdir hit ho ip env
        | absent hno _ _ _ =>
          have hr := hno r (by rw [hit.split]; simp)
          rw [hit.hit] at hr
          cases hr
        | big hbig _ _ =>
          rw [hc] at hf
          have hsmall : d.size<2147483648 := of_decide_eq_true hf
          rw [hlook.size] at hbig
          omega
        | unread he _ => simp [he] at hok
      · rename_i hne
        obtain ⟨h1,h2⟩ := hlay1.sound h.wf.names hdir
        exact ⟨d1,e1,rfl,h1,by rw [if_neg (fun he => hne (.inl he))]; exact h2⟩

def Dir.insertable (cfg : Config) (d : Dir) (name : Name) : Bool :=
  d.records.all (fun r => !r.hit name.bytes) &&
    (!decide (d.lastnamei=.create ∧ dirRecLen name.bytes.length≤d.count) ||
      d.usable cfg (dirRecLen name.bytes.length))

structure Cuttable (cfg : Config) (rs : List Record) (size e : ℕ) : Prop where
  block : cfg.blocksize ∣ e
  le : e ≤ size
  dead : DeadFrom rs e

theorem SlotAt.deadFrom {rs before run behind new : List Record} {need o c e : ℕ}
    (hs : SlotAt cfg rs need o c before run behind) (h : Layout cfg d rs) (hd : DeadFrom rs e)
    (he : o+c≤e) (hnew : total recLen new=total recLen run) :
    DeadFrom (before++new++behind) e := by
  obtain ⟨rfl,hstart,hcount,-,-,-⟩ := hs
  obtain ⟨xs,ys,hsplit,hx,hdead⟩ := hd
  obtain ⟨zs,rfl,rfl⟩ := h.split_le hsplit (by rw [total_append]; omega)
  refine ⟨before++new++zs,ys,by simp,?_,hdead⟩
  rw [total_append,total_append] at hx ⊢
  omega

/-- What the writing of a new entry does to the list of records. -/
inductive Inserted (cfg : Config) (rs : List Record) (name : Name) (ip : Target cfg) (d : Dir) :
    List Record → Prop
  | slot (before run behind : List Record) (len : ℕ) :
      SlotAt cfg rs (dirRecLen name.bytes.length) d.offset d.count before run behind →
      total recLen (packed run++[newRecord name ip len])=total recLen run →
      Inserted cfg rs name ip d (before++(packed run++[newRecord name ip len])++behind)
  | block : d.count=0 → Inserted cfg rs name ip d (rs++[newRecord name ip cfg.blocksize])

theorem Inserted.entries {rs rs' : List Record} {ip : Target cfg}
    (h : Inserted cfg rs name ip d rs') :
    (entriesOf rs').Perm ((name.bytes,ip.number)::entriesOf rs) := by
  cases h with
  | slot before run behind len hs _ =>
    rw [hs.split]
    simp only [entriesOf_append,entriesOf_packed,entriesOf_newRecord]
    have hp : (entriesOf before++entriesOf run++(name.bytes,ip.number)::entriesOf behind).Perm
        ((name.bytes,ip.number)::(entriesOf before++entriesOf run++entriesOf behind)) :=
      List.perm_middle
    simpa using hp
  | block _ =>
    rw [entriesOf_append,entriesOf_newRecord]
    exact List.perm_append_singleton _ _

theorem Layout.insert_new (h : Layout cfg d rs)
    (hs : NewSlot cfg rs (dirRecLen name.bytes.length) d) (ip : Target cfg) (env : Env) :
    (d.insert cfg name ip env=.error .indexed ∧ d.count=0 ∧ d.size/cfg.blocksize=1 ∧
      cfg.dirIndex=true) ∨
    (∃ e,d.insert cfg name ip env=.ok (d,e,none) ∧ e≠.ok ∧
      (env.bad≠[] ∨ env.written=false ∨ 2147483648 ≤ d.size)) ∨
    ∃ d' rs' t,d.insert cfg name ip env=.ok (d',.ok,t) ∧ Layout cfg d' rs' ∧
      Inserted cfg rs name ip d rs' ∧ d'.diroff=d.diroff ∧ d'.dcache=d.dcache ∧
      ∀ e∈t,Cuttable cfg rs' d'.size e := by
  rcases hs with ⟨hc,ho⟩ | hu
  · have hzero : d.offset%cfg.blocksize=0 := by
      rw [ho]
      exact Nat.mod_eq_zero_of_dvd h.blocks
    unfold Dir.insert
    rw [if_pos hc,if_neg (by omega)]
    split
    · rename_i hidx
      split
      · rename_i hbad
        exact .inr (.inl ⟨_,rfl,by simp,.inl (fun he => by simp [he] at hbad)⟩)
      · exact .inl ⟨rfl,hc,hidx⟩
    · split
      · exact .inr (.inr ⟨_,_,_,rfl,h.write_end name ip env.junk ho,.block hc,rfl,rfl,by simp⟩)
      · rename_i hw
        have hw : env.written=false ∨ 2147483648 ≤ d.size := by
          rw [← ho]
          rcases hbool : env.written with _ | _
          · exact .inl rfl
          · exact .inr (Nat.not_lt.mp (fun hlt => hw ⟨hbool,hlt⟩))
        exact .inr (.inl ⟨_,rfl,by simp,.inr hw⟩)
  · obtain ⟨before,run,behind,hat⟩ := hu.slot
    rcases h.insert_slot hat ip env with ⟨he,hbad⟩ | ⟨data,len,he,hlay⟩
    · exact .inr (.inl ⟨_,he,by simp,.inl hbad⟩)
    right
    right
    have hsame : total recLen (packed run++[newRecord name ip len])=
        total recLen run := by
      have h1 := h.size_eq
      have h2 := hlay.size_eq
      rw [hat.split,total_append,total_append] at h1
      rw [total_append,total_append] at h2
      dsimp only at h2
      omega
    refine ⟨_,_,_,he,hlay,.slot before run behind len hat hsame,rfl,rfl,?_⟩
    intro e hmem
    split at hmem
    · rename_i hcond
      obtain rfl := Option.mem_some_iff.mp hmem
      obtain ⟨h1,h2,h3⟩ := hu.tail hcond.1 hcond.2
      exact ⟨h1,Nat.le_of_lt hcond.2,hat.deadFrom h h3 h2 hsame⟩
    · cases hmem

theorem entries_absent {name : List UInt8} (h : ∀ r∈rs,r.hit name=false) : name∉(entriesOf rs).map Prod.fst := by
  intro hm
  obtain ⟨x,hx,rfl⟩ := List.mem_map.mp hm
  obtain ⟨r,hr,rfl⟩ := List.mem_map.mp hx
  obtain ⟨hrs,hl⟩ := List.mem_filter.mp hr
  have := h r hrs
  simp [Record.hit,hl] at this

theorem nodup_of_perm {rs' : List Record} {name : List UInt8} {n : ℕ}
    (hperm : (entriesOf rs').Perm ((name,n)::entriesOf rs)) (habs : ∀ r∈rs,r.hit name=false)
    (hn : ((entriesOf rs).map Prod.fst).Nodup) : ((entriesOf rs').map Prod.fst).Nodup := by
  rw [(hperm.map Prod.fst).nodup_iff,List.map_cons,List.nodup_cons]
  exact ⟨entries_absent habs,hn⟩

/-- When `ext2_direnter` gives `IN_LOOK` up: nothing has changed, or the entry is there and the
directory may be cut off as is about to be done. -/
inductive EnterEnds (cfg : Config) (d : Dir) (name : Name) (ip : Target cfg) :
    Except Stop (Dir × Errno × Option ℕ) → Prop
  | indexed : EnterEnds cfg d name ip (.error .indexed)
  | failed (d' : Dir) (e : Errno) : e≠.ok → Sound cfg d' → d'.entries=d.entries →
      EnterEnds cfg d name ip (.ok (d',e,none))
  | done (d' : Dir) (t : Option ℕ) : Sound cfg d' →
      d'.entries.Perm ((name.bytes,ip.number)::d.entries) →
      (∀ e∈t,Cuttable cfg d'.records d'.size e) → EnterEnds cfg d name ip (.ok (d',.ok,t))

theorem Layout.insert_ends {d d1 : Dir} (h : Sound cfg d) (ip : Target cfg) (env : Env)
    (habs : ∀ r∈d.records,r.hit name.bytes=false) (hl : Layout cfg d1 d.records)
    (hd : cfg.blocksize ∣ d1.diroff) (hs : NewSlot cfg d.records (dirRecLen name.bytes.length) d1) :
    EnterEnds cfg d name ip (d1.insert cfg name ip env) := by
  rcases hl.insert_new hs ip env with ⟨he,-⟩ | ⟨e,he,hne,-⟩ | ⟨d',rs',t,he,hlay,hins,hdir,-,hcut⟩
  · rw [he]
    exact .indexed
  · obtain ⟨h1,h2⟩ := hl.sound h.wf.names hd
    rw [he]
    exact .failed d1 e hne h1 h2
  have hperm := hins.entries
  have hnames := nodup_of_perm hperm habs h.wf.names
  obtain ⟨h1,h2⟩ := hlay.sound hnames (hdir ▸ hd)
  rw [he]
  refine .done d' t h1 ?_ ?_
  · rw [h2]
    exact hperm
  · rw [hlay.records]
    exact hcut

theorem Sound.enter (h : Sound cfg d) (hi : d.insertable cfg name=true) {op : NameiOp}
    (hop : op.wantsSlot=true) (ip : Target cfg) (env : Env) : EnterEnds cfg d name ip (d.enter cfg op name ip env) := by
  obtain ⟨h1,h2⟩ := Bool.and_eq_true_iff.mp hi
  have habs : ∀ r∈d.records,r.hit name.bytes=false := by simpa using h1
  have hlay := h.wf.layout
  unfold Dir.enter
  split
  · rename_i hre
    rw [decide_eq_true hre] at h2
    exact Layout.insert_ends h ip env habs hlay h.diroff
      (.inr (usable_spec hlay (by simpa using h2)))
  have hne : op≠.lookup := by
    rintro rfl
    cases hop
  obtain ⟨d1,e1,hl,hlook,-,hout⟩ := hlay.lookupi_outcome hne name false env
  have hlay1 := hlook.layout hlay
  have hdir := hlook.diroff h.diroff
  rw [hl]
  dsimp only
  split
  · rename_i hok
    cases hout with
    | found _ _ _ hit _ _ _ _ _ _ => exact (hit.not_absent habs).elim
    | absent _ hne hslot _ =>
      exact Layout.insert_ends h ip env habs hlay1 hdir (hslot (hok.resolve_left hne)).2
    | big _ hne hslot =>
      exact Layout.insert_ends h ip env habs hlay1 hdir (.inl (hslot (hok.resolve_left hne)))
    | unread he _ => simp [he] at hok
  · rename_i hne
    obtain ⟨h3,h4⟩ := hlay1.sound h.wf.names hdir
    exact .failed d1 e1 (fun he => hne (.inl he)) h3 h4

theorem Sound.truncate (h : Sound cfg d) {e : ℕ} (hc : Cuttable cfg d.records d.size e) :
    Sound cfg (d.truncate e) ∧ (d.truncate e).entries=d.entries := by
  obtain ⟨xs,-,-,-,hlay,hent⟩ := h.wf.layout.truncate_dead hc.block hc.le hc.dead
  have hn : ((entriesOf xs).map Prod.fst).Nodup := by
    rw [hent]
    exact h.wf.names
  obtain ⟨h1,h2⟩ := hlay.sound hn h.diroff
  exact ⟨h1,h2.trans hent⟩

theorem Sound.direnter (h : Sound cfg d) (hi : d.insertable cfg name=true) {op : NameiOp}
    (hop : op.wantsSlot=true) (ip : Target cfg) (env : Env) :
    d.direnter cfg op name ip env=.error .indexed ∨
    ∃ d' e,d.direnter cfg op name ip env=.ok (d',e) ∧ Sound cfg d' ∧
      if e=.ok then d'.entries.Perm ((name.bytes,ip.number)::d.entries)
      else d'.entries=d.entries := by
  have hends := h.enter hi hop ip env
  unfold Dir.direnter
  cases hr : d.enter cfg op name ip env with
  | error x =>
    rw [hr] at hends
    cases hends
    exact .inl rfl
  | ok p =>
    rw [hr] at hends
    right
    cases hends with
    | failed d' e hne hs hent => exact ⟨d',e,rfl,hs,by rw [if_neg hne]; exact hent⟩
    | done d' t hs hent hcut =>
      cases t with
      | none => exact ⟨d',.ok,rfl,hs,by simpa using hent⟩
      | some e =>
        obtain ⟨h1,h2⟩ := hs.truncate (hcut e rfl)
        refine ⟨_,.ok,rfl,h1,?_⟩
        rw [if_pos rfl,h2]
        exact hent

def layRecords (rs : List Record) : Bytes :=
  (rs.foldl (fun p r => (p.1+r.recLen,Bytes.store p.2 p.1 (r.image (fun _ => 0))))
    (0,fun _ => 0)).2

def freshDir (rs : List Record) : Dir :=
  ⟨layRecords rs,total recLen rs,2,2,0,0,0,0,0,0,.lookup,[]⟩

def quiet : Env := ⟨[],true,true,true,fun _ => 0⟩

def nameA : Name := ⟨[97],by decide,by decide⟩

def nameB : Name := ⟨[98],by decide,by decide⟩

def nameC : Name := ⟨[99],by decide,by decide⟩

def nameX : Name := ⟨[120],by decide,by decide⟩

def smallRecords : List Record :=
  [⟨2,12,2,[46]⟩,⟨2,12,2,[46,46]⟩,⟨11,12,1,nameX.bytes⟩,⟨12,988,1,nameA.bytes⟩]

def smallDir : Dir := freshDir smallRecords

theorem smallDir_sound : Sound smallConfig smallDir := by
  have hl : Layout smallConfig smallDir smallRecords := ⟨by decide +kernel,rfl,by decide +kernel⟩
  exact (hl.sound (by decide) (Nat.dvd_zero _)).1

end Ext2fsX.Directory
