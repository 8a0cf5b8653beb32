import Ext2fsX.Directory.Reads
import Ext2fsX.Htree.Complete

namespace Ext2fsX.Directory

open Framework Record

def Config.writable (cfg : Config) : Config := { cfg with rdonly := false }

/-- A search calls `ext2_dirbad` for a mangled entry; on a read-only mount it goes on. -/
def Dir.reports (cfg : Config) (d : Dir) (name : List UInt8) (bad : List ℕ) : Prop :=
  d.search cfg.writable .lookup name bad=.stop .dirbad

/-- `.` and `..`, which `ext3_dx_find_entry` does not handle. -/
def isDots (name : List UInt8) : Prop := name=[46] ∨ name=[46,46]

deriving instance Decidable for isDots

/-- `ext2_lookupi` for `LOOKUP` in a directory with an index. Every error of `ext3_dx_find_entry`
but `ERR_BAD_DX_DIR` ends with `ENOENT`, and `i_diroff` stays. -/
def Dir.lookupIndexed (cfg : Config) (seed : Htree.HashBuf) (t : Htree.IndexedDir) (d : Dir)
    (name : Name) (vpp : Bool) (env : Env) : Except Stop (Dir × Errno) :=
  if isDots name.bytes then d.lookupi cfg .lookup name vpp env
  else match Htree.dxFindEntry cfg seed t name.bytes with
    | .at b de =>
      let ep := readRecord (t.leaf b) de
      let need := de+dirRecLen ep.name.length
      if d.size<need ∧ cfg.rdonly=false then .error .dirbad
      else
        let d := { d with
          lastnamei := .lookup, ino := ep.inode, reclen := ep.recLen
          size := if d.size<need then need else d.size }
        if d.number≠d.ino && (vpp && !env.vget) then .ok (d,.eperm) else .ok (d,.ok)
    | .badDxDir => d.lookupi cfg .lookup name vpp env
    | .enoent | .eio => .ok ({ d with lastnamei := .lookup },.enoent)

/-- A lookup is answered right: it finds the name with its inode number, or there is none. -/
def Answers (es : List (List UInt8 × ℕ)) (name : List UInt8) (x : Except Stop (Dir × Errno)) :
    Prop :=
  ∃ d e,x=.ok (d,e) ∧ (e=.ok ∧ (name,d.ino)∈es ∨ e=.enoent ∧ name∉es.map Prod.fst)

variable {cfg : Config} {m : Bytes} {name : List UInt8} {endsearch : ℕ} {s : Search} {o : ℕ}

section Trails

structure Plain (cfg : Config) (m : Bytes) (name : List UInt8) (endsearch o : ℕ) : Prop where
  passable : Passable cfg m [] name endsearch o
  sound : (readRecord m o).mangled cfg (o%cfg.blocksize)=false

def Trail (cfg : Config) (m : Bytes) (name : List UInt8) (endsearch start o : ℕ) : Prop :=
  ∃ rs : List ℕ,Tiles id (stride cfg m) (fun o _ => Plain cfg m name endsearch o) start rs ∧
    start+total id rs=o ∧ o<2147483648

inductive ComesTo (cfg : Config) (m : Bytes) (name : List UInt8) (endsearch o : ℕ) :
    Searched → Prop
  | missing (s : Search) : endsearch≤o → ComesTo cfg m name endsearch o (.notfound s)
  | taken (s : Search) : o<endsearch → Inside cfg m name o → Taken cfg m name o → s.offset=o →
      s.entryoffsetinblock=o%cfg.blocksize → ComesTo cfg m name endsearch o (.found s)

theorem Trail.refl {start : ℕ} (h : start<2147483648) : Trail cfg m name endsearch start start :=
  ⟨[],trivial,rfl,h⟩

theorem Trail.cons {start o : ℕ} (h : Plain cfg m name endsearch start)
    (ht : Trail cfg m name endsearch (start+stride cfg m start) o) :
    Trail cfg m name endsearch start o := by
  obtain ⟨rs,hr,ho,hlt⟩ := ht
  exact ⟨stride cfg m start::rs,⟨rfl,h,hr⟩,by rw [total_cons,id,← Nat.add_assoc,ho],hlt⟩

theorem stride_of_sound (h : (readRecord m o).mangled cfg (o%cfg.blocksize)=false) :
    stride cfg m o=(readRecord m o).recLen := by
  unfold stride
  rw [h,if_neg Bool.false_ne_true]

theorem recLen_pos_of_sound {r : Record} {e : ℕ} (h : r.mangled cfg e=false) : 0 < r.recLen := by
  have h0 := of_decide_eq_false (Bool.or_eq_false_iff.mp h).1
  omega

theorem searchloop_pass (hin : s.InBlock cfg) (hlt : s.offset<endsearch)
    (hi : Inside cfg m name s.offset)
    (hm : (readRecord m s.offset).mangled cfg (s.offset%cfg.blocksize)=false)
    (ht : ¬Taken cfg m name s.offset) (fuel : ℕ) :
    searchloop cfg m [] name endsearch (fuel+1) s=
      if 2147483648 ≤ s.offset+(readRecord m s.offset).recLen then .stop .fault
      else searchloop cfg m [] name endsearch fuel (s.after cfg (readRecord m s.offset)) := by
  have hhit : (readRecord m s.offset).hit name=false := by
    apply Bool.eq_false_iff.mpr
    intro hh
    exact ht ⟨hm,hh⟩
  rw [searchloop,if_pos hlt,if_neg (by simp),scan_of_inside hin hi hm,hhit,
    if_neg Bool.false_ne_true]
  rfl

theorem searchloop_end {fuel : ℕ} (h : endsearch ≤ s.offset) :
    searchloop cfg m [] name endsearch fuel s=.notfound s := by
  cases fuel with
  | zero => rfl
  | succ fuel => rw [searchloop,if_neg (by omega)]

variable {o fuel : ℕ}

/-- A search goes along a trail, unless its last record reaches the end of the search. -/
theorem Trail.reaches (ht : Trail cfg m name endsearch s.offset o)
    (hin : s.InBlock cfg) (hf : endsearch ≤ s.offset+fuel) :
    (∃ s' n,s'.offset=o ∧ s'.InBlock cfg ∧ endsearch ≤ o+n ∧
      searchloop cfg m [] name endsearch fuel s=searchloop cfg m [] name endsearch n s') ∨
    endsearch ≤ o ∧ ∃ s',searchloop cfg m [] name endsearch fuel s=.notfound s' := by
  obtain ⟨rs,ht,ho,hsmall⟩ := ht
  induction rs generalizing s fuel with
  | nil =>
    exact .inl ⟨s,fuel,ho,hin,ho ▸ hf,rfl⟩
  | cons n rs ih =>
    obtain ⟨rfl,⟨hp,hm⟩,ht⟩ := ht
    have hpos := recLen_pos_of_sound hm
    have hlt := hp.searches.1
    have hlands := hp.lands
    rw [stride_of_sound hm] at ht hlands
    rw [total_cons,id,← Nat.add_assoc,stride_of_sound hm] at ho
    obtain ⟨fuel,rfl⟩ : ∃ n,fuel=n+1 := ⟨fuel-1,by omega⟩
    rw [searchloop_pass hin hlt hp.inside hm hp.other,if_neg (by omega)]
    have hnext : (s.after cfg (readRecord m s.offset)).offset=
        s.offset+(readRecord m s.offset).recLen := rfl
    rcases or_assoc.mpr hlands with hblock | hover
    · apply ih (inBlock_of_lands hnext rfl hblock)
      · rw [hnext]
        omega
      · rw [hnext]
        exact ht
      · rw [hnext]
        exact ho
    · exact .inr ⟨by omega,_,searchloop_end (by rw [hnext]; exact hover)⟩

theorem Trail.followed (ht : Trail cfg m name endsearch s.offset o)
    (hin : s.InBlock cfg) (hf : endsearch ≤ s.offset+fuel)
    (hend : endsearch≤o ∨ o<endsearch ∧ Inside cfg m name o ∧ Taken cfg m name o) :
    ComesTo cfg m name endsearch o (searchloop cfg m [] name endsearch fuel s) := by
  rcases ht.reaches hin hf with ⟨s',n,rfl,hin',hn,heq⟩ | ⟨hle,s',heq⟩
  · rw [heq]
    rcases hend with hend | ⟨hlt,hinside,htaken⟩
    · rw [searchloop_end hend]
      exact .missing s' hend
    · obtain ⟨n,rfl⟩ : ∃ k,n=k+1 := ⟨n-1,by omega⟩
      rw [searchloop,if_pos hlt,if_neg (by simp),scan_of_inside hin' hinside htaken.1,
        htaken.2,if_pos rfl]
      exact .taken _ hlt hinside htaken rfl rfl
  · rw [heq]
    exact .missing s' hle

theorem Trail.dirbad (ht : Trail cfg m name endsearch s.offset o)
    (hro : cfg.rdonly=false) (hin : s.InBlock cfg) (hf : endsearch ≤ s.offset+fuel)
    (hlt : o<endsearch) (hinside : Inside cfg m name o)
    (hm : (readRecord m o).mangled cfg (o%cfg.blocksize)=true) :
    searchloop cfg m [] name endsearch fuel s=.stop .dirbad := by
  rcases ht.reaches hin hf with ⟨s',n,rfl,hin',hn,heq⟩ | ⟨hle,-⟩
  · obtain ⟨n,rfl⟩ : ∃ k,n=k+1 := ⟨n-1,by omega⟩
    unfold Inside at hinside
    have hscan : (s'.enterBlock cfg).scan cfg m name=.stop .dirbad := by
      rw [enterBlock_eq hin']
      unfold Search.scan
      dsimp only
      rw [if_neg (by omega),hm,if_pos rfl,hro,if_neg Bool.false_ne_true]
    rw [heq,searchloop,if_pos hlt,if_neg (by simp),hscan]
  · omega

theorem searchloop_outside {fuel : ℕ} (hlt : s.offset<endsearch) (h0 : s.offset%cfg.blocksize≠0)
    (he : cfg.blocksize ≤ s.entryoffsetinblock) :
    searchloop cfg m [] name endsearch (fuel+1) s=.stop .fault := by
  have hsix : 6≤(readRecord m s.offset).touched cfg name s.entryoffsetinblock :=
    Record.six_le_touched _ _
  have hscan : (s.enterBlock cfg).scan cfg m name=.stop .fault := by
    unfold Search.enterBlock Search.scan
    dsimp only
    rw [if_neg h0,if_pos (by omega)]
  rw [searchloop,if_pos hlt,if_neg (by simp),hscan]

/-- A search comes to its end, to a name, to a mangled record, or it reads outside its block. -/
theorem searchloop_comes (m : Bytes) (name : List UInt8) {fuel : ℕ} (hin : s.InBlock cfg)
    (hsmall : s.offset<2147483648) (hf : endsearch ≤ s.offset+fuel) :
    (∃ o,Trail cfg m name endsearch s.offset o ∧
      (endsearch≤o ∨ o<endsearch ∧ Inside cfg m name o ∧ Taken cfg m name o)) ∨
    (∃ o,Trail cfg m name endsearch s.offset o ∧ o<endsearch ∧ Inside cfg m name o ∧
      (readRecord m o).mangled cfg (o%cfg.blocksize)=true) ∨
    searchloop cfg m [] name endsearch fuel s=.stop .fault := by
  induction fuel generalizing s with
  | zero => exact .inl ⟨_,.refl hsmall,.inl hf⟩
  | succ fuel ih =>
    by_cases hlt : s.offset<endsearch
    swap
    · exact .inl ⟨_,.refl hsmall,.inl (Nat.not_lt.mp hlt)⟩
    by_cases hinside : Inside cfg m name s.offset
    swap
    · right
      right
      unfold Inside at hinside
      have hscan : (s.enterBlock cfg).scan cfg m name=.stop .fault := by
        rw [enterBlock_eq hin]
        unfold Search.scan
        dsimp only
        rw [if_pos (by omega)]
      rw [searchloop,if_pos hlt,if_neg (by simp),hscan]
    cases hm : (readRecord m s.offset).mangled cfg (s.offset%cfg.blocksize) with
    | true => exact .inr (.inl ⟨_,.refl hsmall,hlt,hinside,hm⟩)
    | false =>
      by_cases ht : Taken cfg m name s.offset
      · exact .inl ⟨_,.refl hsmall,.inr ⟨hlt,hinside,ht⟩⟩
      have hstride := stride_of_sound hm
      have hpos := recLen_pos_of_sound hm
      have hnext : (s.after cfg (readRecord m s.offset)).offset=
          s.offset+(readRecord m s.offset).recLen := rfl
      have hstep := searchloop_pass hin hlt hinside hm ht fuel
      by_cases hwrap : 2147483648 ≤ s.offset+(readRecord m s.offset).recLen
      · rw [hstep,if_pos hwrap]
        exact .inr (.inr rfl)
      rw [if_neg hwrap] at hstep
      by_cases hlands : (s.offset+(readRecord m s.offset).recLen)%cfg.blocksize=0 ∨
          s.offset%cfg.blocksize+(readRecord m s.offset).recLen < cfg.blocksize ∨
          endsearch ≤ s.offset+(readRecord m s.offset).recLen
      · have hplain : Plain cfg m name endsearch s.offset :=
          ⟨⟨⟨hlt,by simp⟩,hinside,ht,by rw [hstride]; exact hlands⟩,hm⟩
        rcases or_assoc.mpr hlands with hblock | hover
        · rw [hstep]
          have hcons {o : ℕ} (h : Trail cfg m name endsearch
              (s.after cfg (readRecord m s.offset)).offset o) :
              Trail cfg m name endsearch s.offset o := .cons hplain (by rw [hstride]; exact h)
          rcases ih (inBlock_of_lands hnext rfl hblock) (by omega) (by rw [hnext]; omega) with
            ⟨o,h1,h2⟩ | ⟨o,h1,h2⟩ | h
          · exact .inl ⟨o,hcons h1,h2⟩
          · exact .inr (.inl ⟨o,hcons h1,h2⟩)
          · exact .inr (.inr h)
        · exact .inl ⟨_,.cons hplain (.refl (by omega)),.inl (by rw [hstride]; exact hover)⟩
      · push Not at hlands
        obtain ⟨h0,hge,hend⟩ := hlands
        right
        right
        rw [hstep]
        obtain ⟨fuel,rfl⟩ : ∃ n,fuel=n+1 := ⟨fuel-1,by omega⟩
        exact searchloop_outside (by rw [hnext]; exact hend) h0 hge

end Trails

section Tails

variable {d : Dir} {vpp : Bool} {env : Env} {es : List (List UInt8 × ℕ)}

theorem Dir.found_lookup (cfg : Config) (d : Dir) (vpp : Bool) (hv : env.vget=true)
    (hneed : s.entryoffsetinblock+dirRecLen (readRecord d.data s.offset).name.length ≤ d.size) :
    ∃ d',d.found cfg .lookup vpp env s=.ok (d',.ok) ∧
      d'.ino=(readRecord d.data s.offset).inode ∧ cfg.blocksize ∣ d'.diroff := by
  have hno : ¬d.size < s.entryoffsetinblock+dirRecLen (readRecord d.data s.offset).name.length := by
    omega
  unfold Dir.found
  simp only [hno,false_and,if_false,hv,Bool.not_true,Bool.and_false,Bool.false_eq_true]
  exact ⟨_,rfl,rfl,Nat.dvd_sub_mod s.offset⟩

theorem Dir.lookupi_eq (d : Dir) (name : Name) : d.lookupi cfg .lookup name vpp env=
    match d.search cfg .lookup name.bytes env.bad with
    | .found s => { d with lastnamei := .lookup }.found cfg .lookup vpp env s
    | .notfound s => .ok ({ d with lastnamei := .lookup }.notfound cfg .lookup env s)
    | .unread s => .ok ({ d with lastnamei := .lookup, offset := s.offset },.eio)
    | .stop x => .error x := rfl

theorem answers_ok {name : List UInt8} : Answers es name (.ok (d,.ok)) ↔ (name,d.ino)∈es := by
  simp [Answers]

theorem answers_enoent {name : List UInt8} :
    Answers es name (.ok (d,.enoent)) ↔ name∉es.map Prod.fst := by
  simp [Answers]

variable {name : Name}

theorem Dir.answers_found (hv : env.vget=true)
    (h : d.search cfg .lookup name.bytes env.bad=.found s)
    (hneed : s.entryoffsetinblock+dirRecLen (readRecord d.data s.offset).name.length ≤ d.size) :
    Answers es name.bytes (d.lookupi cfg .lookup name vpp env) ↔
      (name.bytes,(readRecord d.data s.offset).inode)∈es := by
  obtain ⟨d',hd,hino,-⟩ := Dir.found_lookup cfg { d with lastnamei := .lookup } vpp hv hneed
  rw [Dir.lookupi_eq,h]
  dsimp only
  rw [hd,answers_ok,hino]

theorem Dir.answers_notfound (h : d.search cfg .lookup name.bytes env.bad=.notfound s) :
    Answers es name.bytes (d.lookupi cfg .lookup name vpp env) ↔ name.bytes∉es.map Prod.fst := by
  rw [Dir.lookupi_eq,h]
  exact answers_enoent

theorem Dir.not_answers_stop {x : Stop} (h : d.search cfg .lookup name.bytes env.bad=.stop x) :
    ¬Answers es name.bytes (d.lookupi cfg .lookup name vpp env) := by
  rw [Dir.lookupi_eq,h]
  rintro ⟨d2,e,he,-⟩
  cases he

end Tails

section Linear

variable {d : Dir} {rs : List Record}

theorem Record.Ok.writable {r : Record} (h : Record.Ok cfg o r) :
    Record.Ok cfg.writable o r := ⟨h.min,h.four,h.fits,h.block,h.inode,h.named⟩

theorem Layout.writable (h : Layout cfg d rs) : Layout cfg.writable d rs :=
  ⟨h.tiles.imp (fun _ hr => hr.writable),h.size_eq,h.blocks⟩

theorem searchList_answers (name : List UInt8)
    (ht : Tiles recLen (readRecord m) (Record.Ok cfg) s.offset rs) :
    (∃ s',searchList cfg [] name rs s=.found s' ∧ readRecord m s'.offset∈rs ∧
      (readRecord m s'.offset).hit name=true) ∨
    ((∃ s',searchList cfg [] name rs s=.notfound s') ∧ ∀ r∈rs,r.hit name=false) := by
  induction rs generalizing s with
  | nil => exact .inr ⟨⟨s,rfl⟩,nofun⟩
  | cons r rs ih =>
    obtain ⟨h1,h2,h3⟩ := ht
    rw [searchList,if_neg (by simp)]
    by_cases hr : r.hit name=true
    · rw [if_pos hr]
      have hrec : readRecord m (s.seen cfg r).offset=r := h1
      refine .inl ⟨s.seen cfg r,rfl,?_⟩
      rw [hrec]
      exact ⟨List.mem_cons_self,hr⟩
    · rw [if_neg hr]
      rcases ih (s := s.after cfg r) h3 with ⟨s',h4,h5,h6⟩ | ⟨h4,h5⟩
      · exact .inl ⟨s',h4,List.mem_cons_of_mem r h5,h6⟩
      · exact .inr ⟨h4,List.forall_mem_cons.mpr ⟨Bool.eq_false_iff.mpr hr,h5⟩⟩

/-- The search comes to the entry, if there is one. From 2^31 bytes on it looks only at the records
before `i_diroff`. -/
def Dir.Reaches (d : Dir) (name : List UInt8) : Prop :=
  d.size<2147483648 ∨ name∉d.entries.map Prod.fst ∨ ¬d.restarts ∧ ∃ xs ys,d.records=xs++ys ∧
    total recLen xs=d.diroff ∧ name∈(entriesOf xs).map Prod.fst

theorem mem_names {rs : List Record} {name : List UInt8} {r : Record} (hr : r∈rs)
    (hhit : r.hit name=true) : (name,r.inode)∈entriesOf rs := by
  obtain ⟨hlive,hname⟩ := Htree.hit_iff.mp hhit
  exact Htree.mem_entriesOf.mpr ⟨r,hr,hlive,by rw [hname]⟩

/-- What is found is an entry, and nothing is missed that the search comes to. -/
theorem Layout.search_answers (h : Layout cfg d d.records) (hd : cfg.blocksize ∣ d.diroff)
    (name : List UInt8) :
    (∃ s,d.search cfg .lookup name []=.found s ∧ readRecord d.data s.offset∈d.records ∧
      (readRecord d.data s.offset).hit name=true ∧ d.Reaches name) ∨
    ((∃ s,d.search cfg .lookup name []=.notfound s) ∧
      (d.Reaches name → name∉d.entries.map Prod.fst)) := by
  have hseen {rs : List Record} {s : Search}
      (ht : Tiles recLen (readRecord d.data) (Record.Ok cfg) s.offset rs) :
      (∃ s',searchList cfg [] name (d.seen rs) s=.found s' ∧ readRecord d.data s'.offset∈rs ∧
        (readRecord d.data s'.offset).hit name=true ∧ d.size<2147483648) ∨
      (∃ s',searchList cfg [] name (d.seen rs) s=.notfound s') ∧
        (d.size<2147483648 → ∀ r∈rs,r.hit name=false) := by
    by_cases hsmall : d.size<2147483648
    · rw [Dir.seen_small hsmall]
      rcases searchList_answers name ht with ⟨s',h1,h2,h3⟩ | ⟨h1,h2⟩
      · exact .inl ⟨s',h1,h2,h3,hsmall⟩
      · exact .inr ⟨h1,fun _ => h2⟩
    · rw [Dir.seen,if_neg hsmall]
      exact .inr ⟨⟨s,rfl⟩,fun h => absurd h hsmall⟩
  by_cases hop : NameiOp.lookup≠.lookup ∨ d.restarts
  · rw [h.search_eq name [] hop]
    rcases @hseen _ (.start .lookup name) h.tiles with ⟨s,h1,h2,h3,h4⟩ | ⟨h1,h2⟩
    · exact .inl ⟨s,h1,h2,h3,.inl h4⟩
    · refine .inr ⟨h1,?_⟩
      rintro (h3 | h3 | ⟨h3,-⟩)
      · exact entries_absent (h2 h3)
      · exact h3
      · exact absurd (hop.resolve_left (fun h => h rfl)) h3
  obtain ⟨xs,ys,s,hsplit,hx,hs,hsearch⟩ := h.search_twice hd name [] hop
  have hnot : ¬d.restarts := fun h => hop (.inr h)
  have hlay : Layout cfg d (xs++ys) := hsplit ▸ h
  have ht := (tiles_append 0 xs ys).mp hlay.tiles
  rw [Nat.zero_add,hx] at ht
  rw [hsearch]
  rcases hseen (s := s) (hs ▸ ht.2) with ⟨s',h1,h2,h3,h4⟩ | ⟨⟨s',h1⟩,h2⟩
  · rw [h1]
    exact .inl ⟨s',rfl,by rw [hsplit]; exact List.mem_append_right xs h2,h3,.inl h4⟩
  · rw [h1]
    rcases searchList_answers name (s := { s' with offset := 0 }) ht.1 with
      ⟨s2,h3,h4,h5⟩ | ⟨h3,h4⟩
    · refine .inl ⟨s2,h3,by rw [hsplit]; exact List.mem_append_left ys h4,h5,.inr (.inr ⟨hnot,xs,ys,
        hsplit,hx,?_⟩)⟩
      exact List.mem_map_of_mem (mem_names h4 h5)
    · refine .inr ⟨h3,?_⟩
      rintro (h5 | h5 | ⟨-,xs',ys',h5,h6,h7⟩)
      · rw [Dir.entries,hsplit]
        exact entries_absent (List.forall_mem_append.mpr ⟨h4,h2 h5⟩)
      · exact h5
      · obtain ⟨rfl,-⟩ := hlay.split_eq (hsplit.symm.trans h5) (hx.trans h6.symm)
        exact absurd h7 (entries_absent h4)

theorem Layout.lookup_answers (h : Layout cfg d d.records) (hd : cfg.blocksize ∣ d.diroff)
    (name : Name) (vpp : Bool) {env : Env} (hbad : env.bad=[]) (hv : env.vget=true) :
    (Answers d.entries name.bytes (d.lookupi cfg .lookup name vpp env) ↔ d.Reaches name.bytes) ∧
      ¬d.reports cfg name.bytes env.bad := by
  rw [hbad]
  constructor
  · have hon := h.search_onRecords hd .lookup name.bytes []
    rcases h.search_answers hd name.bytes with ⟨s,hs,hmem,hhit,hreach⟩ | ⟨⟨s,hs⟩,hno⟩
    · rw [hs] at hon
      obtain ⟨hok,heoib,hend⟩ := hon
      have hfit := hok.fits
      have hmod := Nat.mod_le s.offset cfg.blocksize
      rw [Dir.answers_found hv (hbad ▸ hs) (by omega)]
      exact iff_of_true (mem_names hmem hhit) hreach
    · rw [Dir.answers_notfound (hbad ▸ hs)]
      exact ⟨fun h => .inr (.inl h),hno⟩
  · intro hr
    have hon := h.writable.search_onRecords hd .lookup name.bytes []
    unfold Dir.reports at hr
    rw [hr] at hon
    exact hon

end Linear

section Dots

variable {d : Dir} {t : Htree.IndexedDir} {dot dotdot : Record}

/-- On the disk: the records of `.` and `..` are well formed, and the names differ. -/
structure IndexedImage (cfg : Config) (h : Htree.Hashing) (t : Htree.IndexedDir)
    (dot dotdot : Record) (d : Dir) : Prop where
  image : Image cfg t dot dotdot d.data
  index : Htree.Searchable cfg h t
  size : d.size=t.blocks*cfg.blocksize
  dotInode : dot.inode ≤ cfg.inodesCount
  dotdotInode : dotdot.inode ≤ cfg.inodesCount
  names : ((indexedEntries cfg t dot dotdot).map Prod.fst).Nodup

theorem inside_of_ok (name : List UInt8) (h : Record.Ok cfg o (readRecord m o)) :
    Inside cfg m name o ∧ (readRecord m o).mangled cfg (o%cfg.blocksize)=false := by
  have hblock := h.block
  have htouch := h.touched_le name (o%cfg.blocksize)
  have hpos : (readRecord m o).recLen≠0 := Nat.ne_of_gt h.pos
  constructor
  · unfold Inside
    omega
  · unfold Record.mangled
    rw [dirbadentry_of_ok h,decide_eq_false hpos,Bool.and_false,Bool.or_false]

variable {h : Htree.Hashing}

section

variable (hi : IndexedImage cfg h t dot dotdot d)

include hi

theorem IndexedImage.dot_ok : Record.Ok cfg 0 (readRecord d.data 0) := by
  obtain ⟨h1,h2,h3,h4⟩ := hi.image.dot
  have hbs := cfg.blocksize_bounds
  rw [h1]
  refine ⟨?_,?_,?_,?_,hi.dotInode,?_⟩
  · rw [dirRecLen_one,h4]
  · rw [h4]
  · rw [h3,h4]
    decide
  · rw [Nat.zero_mod]
    omega
  · rw [h3]
    exact fun _ => List.cons_ne_nil _ _

theorem IndexedImage.dotdot_ok : Record.Ok cfg 12 (readRecord d.data 12) := by
  obtain ⟨h1,h2,h3,h4⟩ := hi.image.dotdot
  have hbs := cfg.blocksize_bounds
  have hfour := Nat.mod_eq_zero_of_dvd cfg.four_dvd_blocksize
  have hlen : dirRecLen dotdot.name.length=12 := by rw [h3]; rfl
  rw [h1]
  refine ⟨?_,?_,?_,?_,hi.dotdotInode,?_⟩
  · rw [dirRecLen_one]
    omega
  · omega
  · omega
  · rw [Nat.mod_eq_of_lt (by omega)]
    omega
  · rw [h3]
    exact fun _ => List.cons_ne_nil _ _

theorem IndexedImage.two_le : 2*cfg.blocksize ≤ d.size ∧ cfg.blocksize ∣ d.size := by
  have hlen := hi.index.shape.leaves_length
  obtain ⟨b,ys,hl⟩ := hi.index.shape.leaves_head
  rw [hl,List.length_cons] at hlen
  rw [hi.size]
  exact ⟨Nat.mul_le_mul_right _ (by omega),Nat.dvd_mul_left _ _⟩

end

/-- Where the entry of `.` or `..` is, and its inode number. -/
def dotsPlace (name : List UInt8) : ℕ := if name=[46] then 0 else 12

def dotsInode (dot dotdot : Record) (name : List UInt8) : ℕ :=
  if name=[46] then dot.inode else dotdot.inode

theorem IndexedImage.dots_trail (hi : IndexedImage cfg h t dot dotdot d) (hn : isDots name)
    {endsearch : ℕ} (hpos : 0<endsearch) :
    Trail cfg d.data name endsearch 0 (dotsPlace name) ∧
      Inside cfg d.data name (dotsPlace name) ∧ Taken cfg d.data name (dotsPlace name) ∧
      (readRecord d.data (dotsPlace name)).inode=dotsInode dot dotdot name := by
  have hbs := cfg.blocksize_bounds
  obtain ⟨h1,h2,h3,h4⟩ := hi.image.dot
  obtain ⟨g1,g2,g3,g4⟩ := hi.image.dotdot
  obtain ⟨hin,hmang⟩ := inside_of_ok name hi.dot_ok
  obtain ⟨hin',hmang'⟩ := inside_of_ok name hi.dotdot_ok
  rcases hn with rfl | rfl
  · refine ⟨.refl (by decide),hin,⟨hmang,?_⟩,congrArg Record.inode h1⟩
    exact Htree.hit_iff.mpr (by rw [show dotsPlace [46]=0 from rfl,h1]; exact ⟨h2,h3⟩)
  refine ⟨?_,hin',⟨hmang',?_⟩,congrArg Record.inode g1⟩
  · have hstride : stride cfg d.data 0=12 := by
      unfold stride
      rw [hmang,if_neg Bool.false_ne_true,h1,h4]
    refine .cons ⟨⟨⟨hpos,by simp⟩,hin,?_,?_⟩,hmang⟩ (by rw [hstride]; exact .refl (by decide))
    · rintro ⟨-,hh⟩
      have hname := (Htree.hit_iff.mp hh).2
      rw [h1,h3] at hname
      cases hname
    · rw [hstride,Nat.zero_mod]
      exact .inr (.inl (by omega))
  · exact Htree.hit_iff.mpr (by rw [show dotsPlace [46,46]=12 from rfl,g1]; exact ⟨g2,g3⟩)

theorem Dir.search_once (cfg : Config) (name : List UInt8) (hop : d.restarts)
    (hs : cfg.blocksize ∣ d.size) :
    ∃ s,s.offset=0 ∧ s.InBlock cfg ∧
      d.search cfg .lookup name []=searchloop cfg d.data [] name (doff d.size) (doff d.size) s := by
  refine ⟨(d.searchStart cfg .lookup name).1,?_,?_,?_⟩
  · unfold Dir.searchStart
    rw [if_pos (.inr hop)]
  · unfold Dir.searchStart
    rw [if_pos (.inr hop)]
    exact fun hne => absurd (Nat.zero_mod _) hne
  · unfold Dir.search Dir.searchStart
    rw [if_pos (.inr hop)]
    simp only [ne_eq,not_true_eq_false,false_and,if_false]
    rw [cfg.roundup_of_dvd hs]
    cases searchloop cfg d.data [] name (doff d.size) (doff d.size) _ <;> rfl

/-- Two passes, the second one up to where the first one started. -/
structure Passes (cfg : Config) (name : List UInt8) (d : Dir) (s : Search) : Prop where
  offset : s.offset=d.diroff
  inBlock : s.InBlock cfg
  missing : ∀ s',searchloop cfg d.data [] name (doff d.size) (doff d.size) s=.notfound s' →
    d.search cfg .lookup name []=
      searchloop cfg d.data [] name d.diroff d.diroff { s' with offset := 0 }
  taken : ∀ s',searchloop cfg d.data [] name (doff d.size) (doff d.size) s=.found s' →
    d.search cfg .lookup name []=.found s'
  stopped : ∀ x,searchloop cfg d.data [] name (doff d.size) (doff d.size) s=.stop x →
    d.search cfg .lookup name []=.stop x

theorem Dir.search_again (cfg : Config) (name : List UInt8) (hop : ¬d.restarts)
    (hs : cfg.blocksize ∣ d.size) :
    ∃ s,Passes cfg name d s := by
  have hstart : d.searchStart cfg .lookup name=
      (⟨d.diroff,d.diroff%cfg.blocksize,d.diroff,0,⟨.found,none,0,0,0⟩⟩,true) := by
    unfold Dir.searchStart
    rw [if_neg]
    · rfl
    · rintro (h | h)
      · exact h rfl
      · exact hop h
  refine ⟨⟨d.diroff,d.diroff%cfg.blocksize,d.diroff,0,⟨.found,none,0,0,0⟩⟩,rfl,fun _ => rfl,?_,?_,?_⟩
  all_goals
    intro x h
    unfold Dir.search
    simp [hstart,cfg.roundup_of_dvd hs,h]

/-- The search starts at the beginning and has a round; or from `i_diroff` on the records are plain
up to the end of the search, with the entry before `i_diroff`, or up to the first with the name, and
this has the inode number of the entry. -/
def DotsClear (cfg : Config) (d : Dir) (name : List UInt8) (place ino : ℕ) : Prop :=
  d.restarts ∧ d.size<2147483648 ∨ ¬d.restarts ∧ ∃ o,
    Trail cfg d.data name (doff d.size) d.diroff o ∧ (doff d.size≤o ∧ place<d.diroff ∨
      o<doff d.size ∧ Inside cfg d.data name o ∧ Taken cfg d.data name o ∧
        (readRecord d.data o).inode=ino)

theorem IndexedImage.dots_mem (hi : IndexedImage cfg h t dot dotdot d) (hn : isDots name) (ino : ℕ) :
    (name,ino)∈indexedEntries cfg t dot dotdot ↔ ino=dotsInode dot dotdot name := by
  have hmem : (name,dotsInode dot dotdot name)∈indexedEntries cfg t dot dotdot := by
    unfold indexedEntries
    rcases hn with rfl | rfl
    · rw [hi.image.dot.2.2.1]
      exact List.mem_cons_self
    · rw [hi.image.dotdot.2.2.1]
      exact List.mem_cons_of_mem _ List.mem_cons_self
  constructor
  · intro hm
    exact Htree.eq_of_nodup hi.names hm hmem
  · rintro rfl
    exact hmem

theorem Taken.touched (ht : Taken cfg m name o) :
    (readRecord m o).touched cfg name (o%cfg.blocksize)=8+name.length := by
  obtain ⟨hlive,hname⟩ := Htree.hit_iff.mp ht.2
  have hmang := ht.1
  obtain ⟨hlen,hbad⟩ := Bool.or_eq_false_iff.mp hmang
  have hshort : (cfg.dirchk && (decide ((readRecord m o).recLen<dirRecLen 1) ||
      decide ((readRecord m o).recLen%4≠0)))=false := by
    apply Bool.eq_false_iff.mpr
    intro hs
    obtain ⟨hchk,hs⟩ := Bool.and_eq_true_iff.mp hs
    rw [hchk,Bool.true_and] at hbad
    unfold dirbadentry at hbad
    rcases Bool.or_eq_true_iff.mp hs with hs | hs
    · rw [if_pos (of_decide_eq_true hs)] at hbad
      cases hbad
    · rw [if_pos (of_decide_eq_true hs),ite_self] at hbad
      cases hbad
  unfold Record.touched
  rw [if_neg (of_decide_eq_false hlen),hshort,if_neg Bool.false_ne_true,hbad,
    if_neg Bool.false_ne_true,hlive,hname,decide_eq_true rfl]
  rfl

theorem Taken.need_le (ht : Taken cfg m name o) (hin : Inside cfg m name o) :
    o%cfg.blocksize+dirRecLen (readRecord m o).name.length ≤ cfg.blocksize+3 := by
  have hb := dirRecLen_bounds name.length
  unfold Inside at hin
  rw [ht.touched] at hin
  rw [(Htree.hit_iff.mp ht.2).2]
  omega

variable {nm : Name} {vpp : Bool} {env : Env} {seed : Htree.HashBuf}

theorem IndexedImage.answers_taken (hi : IndexedImage cfg h t dot dotdot d) (hn : isDots nm.bytes)
    (hbad : env.bad=[]) (hv : env.vget=true) (hs : s.offset=o)
    (he : s.entryoffsetinblock=o%cfg.blocksize) (hin : Inside cfg d.data nm.bytes o)
    (ht : Taken cfg d.data nm.bytes o) (hsearch : d.search cfg .lookup nm.bytes []=.found s) :
    Answers (indexedEntries cfg t dot dotdot) nm.bytes (d.lookupi cfg .lookup nm vpp env) ↔
      (readRecord d.data o).inode=dotsInode dot dotdot nm.bytes := by
  have hneed := ht.need_le hin
  have hbs := cfg.blocksize_bounds
  have htwo := hi.two_le.1
  subst hs
  rw [Dir.answers_found hv (hbad ▸ hsearch) (by omega),hi.dots_mem hn]

theorem IndexedImage.not_answers_notfound (hi : IndexedImage cfg h t dot dotdot d)
    (hn : isDots nm.bytes) (hbad : env.bad=[])
    (hsearch : d.search cfg .lookup nm.bytes []=.notfound s) :
    ¬Answers (indexedEntries cfg t dot dotdot) nm.bytes (d.lookupi cfg .lookup nm vpp env) := by
  rw [Dir.answers_notfound (hbad ▸ hsearch)]
  intro hno
  exact hno (List.mem_map_of_mem ((hi.dots_mem hn _).mpr rfl))

theorem DotsClear.search {place ino : ℕ} (hc : DotsClear cfg d name place ino)
    (hs : cfg.blocksize ∣ d.size) (hplace : place<d.size)
    (htrail : ∀ e,0<e → Trail cfg d.data name e 0 place) (hin : Inside cfg d.data name place)
    (ht : Taken cfg d.data name place) (hino : (readRecord d.data place).inode=ino) :
    ∃ o s,d.search cfg .lookup name []=.found s ∧ s.offset=o ∧
      s.entryoffsetinblock=o%cfg.blocksize ∧ Inside cfg d.data name o ∧ Taken cfg d.data name o ∧
      (readRecord d.data o).inode=ino := by
  -- A pass from the start that goes far enough finds the entry itself.
  have hpass (e : ℕ) (he : place<e) (s : Search) (h0 : s.offset=0) :
      ∃ s',searchloop cfg d.data [] name e e s=.found s' ∧ s'.offset=place ∧
        s'.entryoffsetinblock=place%cfg.blocksize := by
    have hinb : s.InBlock cfg := by
      intro hne
      rw [h0] at hne
      exact absurd (Nat.zero_mod _) hne
    have hcomes : ComesTo cfg d.data name e place (searchloop cfg d.data [] name e e s) :=
      Trail.followed (by rw [h0]; exact htrail e (by omega)) hinb (by omega) (.inr ⟨he,hin,ht⟩)
    generalize searchloop cfg d.data [] name e e s=x at hcomes
    cases hcomes with
    | missing s' hle => omega
    | taken s' _ _ _ h1 h2 => exact ⟨s',rfl,h1,h2⟩
  by_cases hop : d.restarts
  · have hsmall : d.size<2147483648 := (hc.resolve_right (fun h => h.1 hop)).2
    obtain ⟨s,h0,-,hsearch⟩ := Dir.search_once cfg name hop hs
    rw [doff,if_pos hsmall] at hsearch
    obtain ⟨s',h1,h2,h3⟩ := hpass d.size hplace s h0
    exact ⟨place,s',hsearch.trans h1,h2,h3,hin,ht,hino⟩
  obtain ⟨-,o,hto,hend⟩ := hc.resolve_left (fun h => hop h.1)
  obtain ⟨s,hp⟩ := Dir.search_again cfg name hop hs
  have hcomes : ComesTo cfg d.data name (doff d.size) o
      (searchloop cfg d.data [] name (doff d.size) (doff d.size) s) := by
    apply Trail.followed (by rw [hp.offset]; exact hto) hp.inBlock (by omega)
    rcases hend with ⟨hle,-⟩ | ⟨h1,h2,h3,-⟩
    · exact .inl hle
    · exact .inr ⟨h1,h2,h3⟩
  generalize hx : searchloop cfg d.data [] name (doff d.size) (doff d.size) s=x at hcomes
  cases hcomes with
  | missing s' hle =>
    have hbefore : place<d.diroff := by
      rcases hend with ⟨-,h1⟩ | ⟨h1,-⟩
      · exact h1
      · omega
    obtain ⟨s2,h1,h2,h3⟩ := hpass d.diroff hbefore { s' with offset := 0 } rfl
    exact ⟨place,s2,(hp.missing s' hx).trans h1,h2,h3,hin,ht,hino⟩
  | taken s' hlt h1 h2 h3 h4 =>
    rcases hend with ⟨hle,-⟩ | ⟨-,-,-,hi⟩
    · omega
    · exact ⟨o,s',hp.taken s' hx,h3,h4,h1,h2,hi⟩

theorem Trail.writable {endsearch start o : ℕ} (ht : Trail cfg m name endsearch start o) :
    Trail cfg.writable m name endsearch start o := by
  obtain ⟨rs,ht,ho⟩ := ht
  refine ⟨rs,ht.imp (fun p hp => ?_),ho⟩
  exact ⟨⟨hp.passable.searches,hp.passable.inside,hp.passable.other,hp.passable.lands⟩,hp.sound⟩

theorem DotsClear.writable {place ino : ℕ} (hc : DotsClear cfg d name place ino) :
    DotsClear cfg.writable d name place ino := by
  rcases hc with h | ⟨hop,o,ht,h⟩
  · exact .inl h
  · exact .inr ⟨hop,o,ht.writable,h⟩

theorem IndexedImage.dots_iff (hi : IndexedImage cfg h t dot dotdot d) (hn : isDots nm.bytes)
    (hbad : env.bad=[]) (hv : env.vget=true) :
    (Answers (indexedEntries cfg t dot dotdot) nm.bytes (d.lookupi cfg .lookup nm vpp env) ∧
      ¬d.reports cfg nm.bytes []) ↔
    DotsClear cfg d nm.bytes (dotsPlace nm.bytes) (dotsInode dot dotdot nm.bytes) := by
  obtain ⟨htwo,hdvd⟩ := hi.two_le
  have hbs := cfg.blocksize_bounds
  have hplace : dotsPlace nm.bytes<d.size := by
    unfold dotsPlace
    split <;> omega
  obtain ⟨-,hin,ht,hino⟩ := hi.dots_trail hn Nat.one_pos
  have htrail (e : ℕ) (he : 0<e) := (hi.dots_trail hn he).1
  constructor
  · rintro ⟨hans,hrep⟩
    by_cases hop : d.restarts
    · refine .inl ⟨hop,?_⟩
      by_contra hbig
      obtain ⟨s,-,-,hsearch⟩ := Dir.search_once cfg nm.bytes hop hdvd
      rw [doff,if_neg hbig] at hsearch
      exact hi.not_answers_notfound hn hbad hsearch hans
    obtain ⟨s,hp⟩ := Dir.search_again cfg nm.bytes hop hdvd
    refine .inr ⟨hop,?_⟩
    have hstart : 0<d.diroff ∧ s.offset<2147483648 := by
      rw [hp.offset]
      unfold Dir.restarts at hop
      omega
    rcases searchloop_comes d.data nm.bytes hp.inBlock hstart.2 (show doff d.size ≤ s.offset+doff d.size by
      omega) with ⟨o,hto,hend⟩ | ⟨o,hto,hlt,hino',hm⟩ | hfault
    · have hcomes := hto.followed hp.inBlock
        (show doff d.size ≤ s.offset+doff d.size by omega) hend
      rw [hp.offset] at hto
      refine ⟨o,hto,?_⟩
      generalize hx : searchloop cfg d.data [] nm.bytes (doff d.size) (doff d.size) s=x at hcomes
      cases hcomes with
      | missing s' hle =>
        by_contra hno
        have hcomes : ComesTo cfg d.data nm.bytes d.diroff (dotsPlace nm.bytes)
            (searchloop cfg d.data [] nm.bytes d.diroff d.diroff { s' with offset := 0 }) := by
          apply Trail.followed (htrail _ (by omega)) _ (by omega) (.inl (by omega))
          exact fun hne => absurd (Nat.zero_mod _) hne
        have hsearch := hp.missing s' hx
        generalize searchloop cfg d.data [] nm.bytes d.diroff d.diroff { s' with offset := 0 }=y
          at hcomes hsearch
        cases hcomes with
        | missing s2 _ => exact hi.not_answers_notfound hn hbad hsearch hans
        | taken s2 hlt => omega
      | taken s' hlt h1 h2 h3 h4 =>
        exact .inr ⟨hlt,h1,h2,(hi.answers_taken hn hbad hv h3 h4 h1 h2 (hp.taken s' hx)).mp hans⟩
    · exfalso
      obtain ⟨s2,hp2⟩ := Dir.search_again cfg.writable nm.bytes hop hdvd
      rw [hp.offset,← hp2.offset] at hto
      exact hrep (hp2.stopped _ (hto.writable.dirbad rfl hp2.inBlock (by omega) hlt hino' hm))
    · exact absurd hans (Dir.not_answers_stop (hbad ▸ hp.stopped _ hfault))
  · intro hc
    constructor
    · obtain ⟨o,s,h1,h2,h3,h4,h5,h6⟩ := hc.search hdvd hplace htrail hin ht hino
      exact (hi.answers_taken hn hbad hv h2 h3 h4 h5 h1).mpr h6
    intro hrep
    obtain ⟨o,s,h1,-⟩ := hc.writable.search hdvd hplace (fun e he => (htrail e he).writable) hin ht
      hino
    unfold Dir.reports at hrep
    rw [h1] at hrep
    cases hrep

theorem IndexedImage.other_answers
    (hi : IndexedImage cfg (Htree.hashing seed t.version) t dot dotdot d) (hn : ¬isDots nm.bytes)
    (hv : env.vget=true) :
    Answers (indexedEntries cfg t dot dotdot) nm.bytes (d.lookupIndexed cfg seed t nm vpp env) := by
  unfold Dir.lookupIndexed
  rw [if_neg hn]
  have hnames (n : List UInt8) (ino : ℕ) (hl : (n,ino)∈Htree.liveEntries cfg t) :
      (n,ino)∈indexedEntries cfg t dot dotdot :=
    List.mem_cons_of_mem _ (List.mem_cons_of_mem _ hl)
  rcases hi.index.find nm.bytes with ⟨y,hy,de,hfind,hloc⟩ | ⟨hno,hfind⟩
  · rw [hfind]
    have hneed : ¬d.size<de+dirRecLen (readRecord (t.leaf y.2) de).name.length := by
      have htwo := hi.two_le.1
      obtain ⟨rs,pre,r,post,hl,hf,rfl⟩ := hloc
      have hlay := Htree.leaf_iff_layout.mp hl
      rw [hf.split] at hlay
      obtain ⟨h1,h2,h3⟩ := hlay.record_ok
      have hfit := h2.fits
      have hleaf : (Htree.leafDir cfg (t.leaf y.2)).size=cfg.blocksize := rfl
      rw [show readRecord (t.leaf y.2) (total recLen pre)=r from h1]
      omega
    simp only [hneed,false_and,if_false,hv,Bool.not_true,Bool.and_false,Bool.false_eq_true]
    exact ⟨_,.ok,rfl,.inl ⟨rfl,hnames _ _ (hloc.mem_liveEntries hy)⟩⟩
  · rw [hfind]
    refine ⟨_,.enoent,rfl,.inr ⟨rfl,?_⟩⟩
    intro hm
    obtain ⟨e,he,hname⟩ := List.mem_map.mp hm
    rw [← hname] at hn hno
    rcases List.mem_cons.mp he with rfl | he
    · exact hn (.inl hi.image.dot.2.2.1)
    rcases List.mem_cons.mp he with rfl | he
    · exact hn (.inr hi.image.dotdot.2.2.1)
    · exact hno (List.mem_map_of_mem he)

end Dots

def Dir.reportsIndexed (cfg : Config) (seed : Htree.HashBuf) (t : Htree.IndexedDir) (d : Dir)
    (name : List UInt8) (bad : List ℕ) : Prop :=
  (isDots name ∨ Htree.dxFindEntry cfg seed t name=.badDxDir) ∧ d.reports cfg name bad

/-- When `LOOKUP` answers right and finds no mangled entry: in a linear directory, and in an indexed
one, where only the dots are searched for linearly. -/
theorem lookup_answers_iff (cfg : Config) (seed : Htree.HashBuf) (name : Name) (vpp : Bool)
    (env : Env) (hbad : env.bad=[]) (hv : env.vget=true) :
    (∀ d,WellFormed cfg d → cfg.blocksize ∣ d.diroff →
      ((Answers d.entries name.bytes (d.lookupi cfg .lookup name vpp env) ∧
        ¬d.reports cfg name.bytes env.bad) ↔ d.Reaches name.bytes) ∧
      ∀ d' e,d.lookupi cfg .lookup name vpp env=.ok (d',e) → cfg.blocksize ∣ d'.diroff) ∧
    ∀ t dot dotdot d,IndexedImage cfg (Htree.hashing seed t.version) t dot dotdot d →
      ((Answers (indexedEntries cfg t dot dotdot) name.bytes
          (d.lookupIndexed cfg seed t name vpp env) ∧
        ¬d.reportsIndexed cfg seed t name.bytes env.bad) ↔
      (isDots name.bytes →
        DotsClear cfg d name.bytes (dotsPlace name.bytes) (dotsInode dot dotdot name.bytes))) := by
  constructor
  · intro d hw hd
    obtain ⟨h1,h2⟩ := hw.layout.lookup_answers hd name vpp hbad hv
    refine ⟨(and_iff_left h2).trans h1,?_⟩
    intro d' e he
    obtain ⟨d2,e2,he2,hl⟩ := hw.layout.lookupi_looked hd .lookup name vpp env
    rw [he] at he2
    cases he2
    exact hl.diroff hd
  · intro t dot dotdot d hi
    by_cases hn : isDots name.bytes
    · have hlookup : d.lookupIndexed cfg seed t name vpp env=d.lookupi cfg .lookup name vpp env := by
        unfold Dir.lookupIndexed
        rw [if_pos hn]
      have hreports : d.reportsIndexed cfg seed t name.bytes env.bad ↔ d.reports cfg name.bytes [] := by
        rw [hbad]
        exact and_iff_right (.inl hn)
      rw [hlookup,hreports,hi.dots_iff hn hbad hv]
      exact ⟨fun h _ => h,fun h => h hn⟩
    · have hfound : Answers _ name.bytes (d.lookupIndexed cfg seed t name vpp env) :=
        hi.other_answers hn hv
      refine ⟨fun _ h => absurd h hn,fun _ => ⟨hfound,?_⟩⟩
      rintro ⟨h | h,-⟩
      · exact hn h
      · rcases hi.index.find name.bytes with ⟨y,hy,de,hfind,-⟩ | ⟨-,hfind⟩
        · rw [hfind] at h
          cases h
        · rw [hfind] at h
          cases h

section Samples

def nameDotdot : Name := ⟨[46,46],by decide,by decide⟩

def dotRecord : Record := ⟨11,12,2,[46]⟩

def dotdotRecord : Record := ⟨2,1012,2,[46,46]⟩

def lowImage : Bytes := layRecords [dotRecord,dotdotRecord,⟨12,1024,1,[99,119,109,103,109]⟩]

def lowIndex : Htree.IndexedDir := ⟨2,0,[⟨0,1⟩],fun _ => [],fun b i => lowImage (b*1024+i),2⟩

def lowDir (diroff : ℕ) : Dir := ⟨lowImage,2048,2,11,0,0,diroff,0,0,0,.lookup,[]⟩

theorem lowLeaf : Htree.Leaf smallConfig (lowIndex.leaf 1) [⟨12,1024,1,[99,119,109,103,109]⟩] :=
  ⟨by decide +kernel,by decide +kernel⟩

theorem lowImage_dots : (readRecord lowImage 0=dotRecord ∧ dotRecord.live=true ∧
      dotRecord.name=[46] ∧ dotRecord.recLen=12) ∧
    readRecord lowImage 12=dotdotRecord ∧ dotdotRecord.live=true ∧ dotdotRecord.name=[46,46] ∧
      dotdotRecord.recLen=smallConfig.blocksize-12 := by decide +kernel

theorem lowDir_image (diroff : ℕ) : IndexedImage smallConfig (Htree.hashing ⟨0,0,0,0⟩ 2) lowIndex
    dotRecord dotdotRecord (lowDir diroff) where
  image :=
    { dot := lowImage_dots.1
      dotdot := lowImage_dots.2
      node := nofun
      leaf := by
        intro b hb
        obtain rfl : b=1 := List.mem_singleton.mp hb
        exact ⟨⟨_,lowLeaf⟩,fun _ _ => rfl⟩
      blocks := by
        intro b
        have hn : lowIndex.nodes.map Prod.snd=[] := rfl
        have hl : lowIndex.leaves.map Prod.snd=[1] := rfl
        have h2 : lowIndex.blocks=2 := rfl
        rw [hn,hl,h2,List.mem_singleton]
        simp only [List.not_mem_nil,false_or]
        omega
      root := by decide }
  index :=
    { shape := ⟨by decide,by decide,nofun,by decide,nofun,by decide,by decide⟩
      known := rfl
      leaf := by
        intro y hy
        obtain rfl : y=(0,1) := List.mem_singleton.mp hy
        exact ⟨_,lowLeaf⟩
      ranged := ⟨fun _ _ => Nat.zero_le _,nofun,trivial⟩ }
  size := by rfl
  dotInode := by decide
  dotdotInode := by decide
  names := by decide +kernel

theorem lookup_answers_low :
    Answers smallDir.entries nameA.bytes (smallDir.lookupi smallConfig .lookup nameA true quiet) ∧
    ((Answers (indexedEntries smallConfig lowIndex dotRecord dotdotRecord) nameDotdot.bytes
        ((lowDir 0).lookupIndexed smallConfig ⟨0,0,0,0⟩ lowIndex nameDotdot true quiet) ∧
      ¬(lowDir 0).reportsIndexed smallConfig ⟨0,0,0,0⟩ lowIndex nameDotdot.bytes []) ↔
    (isDots nameDotdot.bytes → DotsClear smallConfig (lowDir 0) nameDotdot.bytes 12 2)) := by
  constructor
  · exact (((lookup_answers_iff smallConfig ⟨0,0,0,0⟩ nameA true quiet rfl rfl).1 smallDir
      smallDir_sound.wf (Nat.dvd_zero _)).1.mpr (.inl (by decide))).1
  · exact (lookup_answers_iff smallConfig ⟨0,0,0,0⟩ nameDotdot true quiet rfl rfl).2 lowIndex dotRecord
      dotdotRecord (lowDir 0) (lowDir_image 0)

def Searched.isDirbad : Searched → Bool
  | .stop .dirbad => true
  | _ => false

theorem Searched.eq_dirbad {x : Searched} (h : x.isDirbad=true) : x=.stop .dirbad := by
  unfold Searched.isDirbad at h
  split at h
  · rfl
  · cases h

theorem low_fpos : ((Htree.readdirIndexed smallConfig ⟨0,0,0,0⟩ 0 ⟨lowIndex,dotRecord,dotdotRecord⟩
    Htree.newCursor 0 24).toOption.map (fun x => x.1.fpos))=some 1154 := by decide +kernel

theorem low_mangled :
    IndexedImage smallConfig (Htree.hashing ⟨0,0,0,0⟩ 2) lowIndex dotRecord dotdotRecord
      (lowDir 1154) ∧
    ((Htree.readdirIndexed smallConfig ⟨0,0,0,0⟩ 0 ⟨lowIndex,dotRecord,dotdotRecord⟩
      Htree.newCursor 0 24).toOption.map (fun x => x.1.fpos))=some 1154 ∧
    ¬Answers (indexedEntries smallConfig lowIndex dotRecord dotdotRecord) nameDotdot.bytes
      ((lowDir 1154).lookupIndexed smallConfig ⟨0,0,0,0⟩ lowIndex nameDotdot true quiet) ∧
    (lowDir 1154).reportsIndexed smallConfig ⟨0,0,0,0⟩ lowIndex nameDotdot.bytes [] := by
  have hsearch : (lowDir 1154).search smallConfig .lookup nameDotdot.bytes []=.stop .dirbad :=
    Searched.eq_dirbad (by decide +kernel)
  have hlookup : (lowDir 1154).lookupIndexed smallConfig ⟨0,0,0,0⟩ lowIndex nameDotdot true quiet=
      (lowDir 1154).lookupi smallConfig .lookup nameDotdot true quiet := if_pos (.inr rfl)
  refine ⟨lowDir_image 1154,low_fpos,?_,.inl (.inr rfl),hsearch⟩
  rw [hlookup]
  exact Dir.not_answers_stop hsearch

end Samples

end Ext2fsX.Directory
