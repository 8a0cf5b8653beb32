import Ext2fsX.Directory.Sequences

namespace Ext2fsX.Directory

open Framework Record

variable {cfg : Config}

/-- On the `MINDIRSIZ` bytes read at `off`: where the next record starts, or `none` to return 0. -/
def diremptyStep (m : Bytes) (parentino off : ℕ) : Option ℕ :=
  let recLen := m.le16 (off+4)
  let namlen := (m (off+6)).toNat
  if recLen=0 then none
  else if m.le32 off=0 then some (off+recLen)
  else if 2<namlen then none
  else if m (off+8)≠46 then none
  else if namlen=1 then some (off+recLen)
  else if m (off+9)=46 ∧ m.le32 off=parentino then some (off+recLen)
  else none

/-- The loop of `ext2_dirempty`; `none` stands for more passes than `fuel`. -/
def diremptyLoop (m : Bytes) (size parentino : ℕ) : ℕ → ℕ → Option Bool
  | 0,_ => none
  | fuel+1,off =>
    if size≤off then some true
    else if size<off+12 then some false
    else match diremptyStep m parentino off with
      | some off => diremptyLoop m size parentino fuel off
      | none => some false

/-- `ext2_dirempty` with all reads succeeding. -/
def dirempty (m : Bytes) (size parentino : ℕ) : Option Bool :=
  diremptyLoop m size parentino (size+1) 0

structure Record.Walkable (cfg : Config) (o : ℕ) (r : Record) : Prop where
  min : 12 ≤ r.recLen
  block : o%cfg.blocksize+r.recLen ≤ cfg.blocksize
  named : r.live=true → r.name≠[]

def Dotty (parent : ℕ) (e : List UInt8 × ℕ) : Prop := e.1=[46] ∨ e=([46,46],parent)

deriving instance Decidable for Dotty

def Record.skipped (parent : ℕ) (r : Record) : Bool :=
  !r.live || decide (Dotty parent (r.name,r.inode))

variable {o parent : ℕ}

theorem Record.Ok.walkable {r : Record} (h : Record.Ok cfg o r) : r.Walkable cfg o :=
  ⟨h.min,h.block,h.named⟩

theorem diremptyStep_eq {m : Bytes} {r : Record} (hr : readRecord m o=r) (h : r.Walkable cfg o) :
    diremptyStep m parent o=if r.skipped parent then some (o+r.recLen) else none := by
  have hmin := h.min
  have hnamed := h.named
  subst hr
  have hlen : (readRecord m o).recLen=m.le16 (o+4) := rfl
  have hino : (readRecord m o).inode=m.le32 o := rfl
  have hname : (readRecord m o).name=m.slice (o+8) (m (o+6)).toNat := rfl
  unfold diremptyStep Record.skipped Dotty
  rw [if_neg (by omega),hlen,hname,hino]
  by_cases hz : m.le32 o=0
  · rw [if_pos hz]
    simp [Record.live,hino,hz]
  have hlive : (readRecord m o).live=true := by simp [Record.live,hino,hz]
  have hpos : (m (o+6)).toNat≠0 := by
    intro h0
    apply hnamed hlive
    rw [hname,h0]
    rfl
  rw [if_neg hz,hlive]
  -- the lengths 1 and 2 are those of `.` and `..`
  by_cases h2 : 2<(m (o+6)).toNat
  · rw [if_pos h2]
    have hne (xs : List UInt8) (hx : xs.length≤2) : m.slice (o+8) (m (o+6)).toNat≠xs := by
      intro he
      have := congrArg List.length he
      rw [Bytes.slice_length] at this
      omega
    have h46 := hne [46] (by decide)
    have h4646 := hne [46,46] (by decide)
    simp [h46,h4646]
  rcases (by omega : (m (o+6)).toNat=1 ∨ (m (o+6)).toNat=2) with hn | hn
  · rw [hn,if_pos rfl]
    have hs : m.slice (o+8) 1=[m (o+8)] := rfl
    rw [hs]
    by_cases hd : m (o+8)=46 <;> simp [hd]
  · rw [hn,if_neg (by decide : ¬(2=1))]
    have hs : m.slice (o+8) 2=[m (o+8),m (o+9)] := rfl
    rw [hs]
    by_cases hd : m (o+8)=46 <;> by_cases hd' : m (o+9)=46 <;> simp [hd,hd']

variable {rs : List Record}

theorem diremptyLoop_tiles {m : Bytes} {size fuel : ℕ}
    (h : Tiles recLen (readRecord m) (Record.Walkable cfg) o rs)
    (hsize : o+total recLen rs=size) (hf : rs.length<fuel) :
    diremptyLoop m size parent fuel o=some (rs.all (Record.skipped parent)) := by
  induction rs generalizing o fuel with
  | nil =>
    cases fuel with
    | zero => cases hf
    | succ fuel =>
      unfold diremptyLoop
      rw [total_nil] at hsize
      rw [if_pos (by omega)]
      rfl
  | cons r rs ih =>
    obtain ⟨hr,hw,hrest⟩ := h
    have hmin := hw.min
    rw [total_cons] at hsize
    cases fuel with
    | zero => cases hf
    | succ fuel =>
      unfold diremptyLoop
      rw [if_neg (by omega),if_neg (by omega),diremptyStep_eq hr hw,List.all_cons]
      cases r.skipped parent with
      | false => rfl
      | true =>
        exact ih hrest (by omega) (by simpa using hf)

theorem all_skipped_iff :
    rs.all (Record.skipped parent)=true ↔ ∀ e∈entriesOf rs,Dotty parent e := by
  rw [List.all_eq_true]
  constructor
  · intro h e he
    obtain ⟨r,hr,rfl⟩ := List.mem_map.mp he
    obtain ⟨hrs,hl⟩ := List.mem_filter.mp hr
    have := h r hrs
    simpa [Record.skipped,hl] using this
  · intro h r hr
    by_cases hl : r.live=true
    · have := h (r.name,r.inode) (List.mem_map.mpr ⟨r,List.mem_filter.mpr ⟨hr,hl⟩,rfl⟩)
      simp [Record.skipped,this]
    · simp [Record.skipped,hl]

theorem dirempty_tiles {m : Bytes} {size : ℕ} (parent : ℕ)
    (h : Tiles recLen (readRecord m) (Record.Walkable cfg) 0 rs)
    (hsize : total recLen rs=size) :
    ∃ b,dirempty m size parent=some b ∧ (b=true ↔ ∀ e∈entriesOf rs,Dotty parent e) := by
  have hlen := h.length_le (fun _ _ hw => Nat.lt_of_lt_of_le (by decide) hw.min)
  refine ⟨rs.all (Record.skipped parent),?_,all_skipped_iff⟩
  exact diremptyLoop_tiles h (by omega) (by omega)

/-- The entries of a directory that can be removed from `parent`. -/
def OnlyDots (parent : ℕ) (es : List (List UInt8 × ℕ)) : Prop :=
  ∃ self,es.Perm [([46],self),([46,46],parent)]

/-- No name occurs twice, and `.` and `..` do occur. -/
structure Dotted (es : List (List UInt8 × ℕ)) : Prop where
  names : (es.map Prod.fst).Nodup
  dot : [46]∈es.map Prod.fst
  dotdot : [46,46]∈es.map Prod.fst

theorem Dotted.onlyDots_iff {es : List (List UInt8 × ℕ)} (h : Dotted es) (parent : ℕ) :
    (∀ e∈es,Dotty parent e) ↔ OnlyDots parent es := by
  constructor
  · intro hall
    obtain ⟨a,ha,ha1⟩ := List.mem_map.mp h.dot
    obtain ⟨b,hb,hb1⟩ := List.mem_map.mp h.dotdot
    have hb2 : b=([46,46],parent) := by
      rcases hall b hb with hd | hd
      · rw [hb1] at hd
        cases hd
      · exact hd
    have hself : a=([46],a.2) := Prod.ext ha1 rfl
    refine ⟨a.2,?_⟩
    rw [← hself,← hb2]
    have hab : a≠b := by
      intro he
      rw [he,hb1] at ha1
      cases ha1
    have hpair : [a,b].Nodup := by simpa using hab
    rw [List.perm_ext_iff_of_nodup h.names.of_map hpair]
    intro e
    constructor
    · intro he
      rcases hall e he with hd | hd
      · have : e=a := List.inj_on_of_nodup_map h.names he ha (hd.trans ha1.symm)
        simp [this]
      · simp [hd,hb2]
    · intro he
      rcases List.mem_pair.mp he with rfl | rfl
      · exact ha
      · exact hb
  · rintro ⟨self,hp⟩ e he
    rcases List.mem_pair.mp (hp.mem_iff.mp he) with rfl | rfl
    · exact .inl rfl
    · exact .inr rfl

/-- The root block with `.` and a `..` that reaches to its end, nodes under the header of a free
record, and the leaves. -/
structure Image (cfg : Config) (t : Htree.IndexedDir) (dot dotdot : Record) (m : Bytes) : Prop where
  dot : readRecord m 0=dot ∧ dot.live=true ∧ dot.name=[46] ∧ dot.recLen=12
  dotdot : readRecord m 12=dotdot ∧ dotdot.live=true ∧ dotdot.name=[46,46] ∧
    dotdot.recLen=cfg.blocksize-12
  node : ∀ b∈t.nodes.map Prod.snd,(readRecord m (b*cfg.blocksize)).inode=0 ∧
    (readRecord m (b*cfg.blocksize)).recLen=cfg.blocksize
  leaf : ∀ b∈t.leaves.map Prod.snd,(∃ rs,Htree.Leaf cfg (t.leaf b) rs) ∧
    ∀ i < cfg.blocksize,m (b*cfg.blocksize+i)=t.leaf b i
  blocks : ∀ b,(b∈t.nodes.map Prod.snd ∨ b∈t.leaves.map Prod.snd) ↔ 0<b ∧ b<t.blocks
  root : 0<t.blocks

/-- The live entries of an indexed directory with those of its root block. -/
def indexedEntries (cfg : Config) (t : Htree.IndexedDir) (dot dotdot : Record) :
    List (List UInt8 × ℕ) :=
  (dot.name,dot.inode)::(dotdot.name,dotdot.inode)::Htree.liveEntries cfg t

theorem tiles_block {m m' : Bytes} {b : ℕ} (h : Tiles recLen (readRecord m') (Record.Ok cfg) o rs)
    (hm : ∀ i,o ≤ i → i<o+total recLen rs → m (b*cfg.blocksize+i)=m' i) :
    Tiles recLen (readRecord m) (Record.Walkable cfg) (b*cfg.blocksize+o) rs := by
  induction rs generalizing o with
  | nil => trivial
  | cons r rs ih =>
    obtain ⟨hr,hok,hrest⟩ := h
    rw [total_cons] at hm
    have hb := dirRecLen_bounds r.name.length
    have hfit := hok.fits
    refine ⟨?_,⟨hok.min,?_,hok.named⟩,?_⟩
    · rw [← hr]
      apply Htree.readRecord_moved
      rw [hr]
      intro i hi
      rw [Nat.add_assoc]
      exact hm (o+i) (by omega) (by omega)
    · rw [Nat.mul_add_mod_self_right]
      exact hok.block
    · rw [Nat.add_assoc]
      apply ih hrest
      intro i h1 h2
      exact hm i (by omega) (by omega)

namespace Image

variable {t : Htree.IndexedDir} {dot dotdot : Record} {m : Bytes}

theorem block_records (h : Image cfg t dot dotdot m) {b : ℕ} (hb : b<t.blocks) :
    ∃ rs,Tiles recLen (readRecord m) (Record.Walkable cfg) (b*cfg.blocksize) rs ∧
      total recLen rs=cfg.blocksize ∧
      ∀ e,e∈entriesOf rs ↔ (b=0 ∧ (e=(dot.name,dot.inode) ∨ e=(dotdot.name,dotdot.inode))) ∨
        ∃ x∈t.leaves,x.2=b ∧ e∈Htree.blockEntries cfg (t.leaf b) := by
  have hbs := cfg.blocksize_bounds
  by_cases h0 : b=0
  · subst h0
    obtain ⟨hd1,hd2,hd3,hd4⟩ := h.dot
    obtain ⟨hdd1,hdd2,hdd3,hdd4⟩ := h.dotdot
    have hno (x : ℕ × ℕ) (hx : x∈t.leaves) : x.2≠0 := by
      have := (h.blocks x.2).mp (.inr (List.mem_map_of_mem hx))
      omega
    refine ⟨[dot,dotdot],⟨?_,⟨?_,?_,?_⟩,?_,⟨?_,?_,?_⟩,trivial⟩,?_,?_⟩
    · rw [Nat.zero_mul]
      exact hd1
    · omega
    · rw [Nat.zero_mul,Nat.zero_mod]
      omega
    · intro _
      simp [hd3]
    · rw [Nat.zero_mul,hd4]
      exact hdd1
    · omega
    · rw [Nat.zero_mul,hd4,Nat.zero_add,Nat.mod_eq_of_lt (by omega)]
      omega
    · intro _
      simp [hdd3]
    · rw [total_cons,total_cons,total_nil,hd4,hdd4]
      omega
    · intro e
      simp only [entriesOf,List.filter_cons,hd2,hdd2,if_true,List.filter_nil,List.map_cons,
        List.map_nil,List.mem_cons,List.not_mem_nil,or_false,true_and]
      constructor
      · exact .inl
      · rintro (he | ⟨x,hx,hx0,-⟩)
        · exact he
        · exact absurd hx0 (hno x hx)
  · by_cases hleaf : b∈t.leaves.map Prod.snd
    · obtain ⟨⟨rs,hl⟩,hbytes⟩ := h.leaf b hleaf
      obtain ⟨x,hx,hxb⟩ := List.mem_map.mp hleaf
      refine ⟨rs,?_,hl.total_eq,fun e => ?_⟩
      · exact tiles_block hl.tiles (fun i _ hi => hbytes i (by rw [hl.total_eq] at hi; omega))
      rw [hl.blockEntries]
      constructor
      · exact fun he => .inr ⟨x,hx,hxb,he⟩
      · rintro (⟨hz,-⟩ | ⟨-,-,-,he⟩)
        · exact absurd hz h0
        · exact he
    · have hnode := ((h.blocks b).mpr ⟨by omega,hb⟩).resolve_right hleaf
      obtain ⟨hi,hl⟩ := h.node b hnode
      refine ⟨[readRecord m (b*cfg.blocksize)],⟨rfl,⟨by omega,?_,?_⟩,trivial⟩,by simp [hl],?_⟩
      · rw [Nat.mul_mod_left,hl]
        omega
      · intro hlive
        simp [Record.live,hi] at hlive
      · intro e
        simp only [entriesOf,Record.live,hi,ne_eq,not_true_eq_false,decide_false,
          Bool.false_eq_true,not_false_eq_true,List.filter_cons_of_neg,List.filter_nil,
          List.map_nil,List.not_mem_nil,false_iff]
        rintro (⟨hz,-⟩ | ⟨x,hx,hxb,-⟩)
        · exact h0 hz
        · exact hleaf (List.mem_map.mpr ⟨x,hx,hxb⟩)

theorem records (h : Image cfg t dot dotdot m) {n : ℕ} (hn : n≤t.blocks) :
    ∃ rs,Tiles recLen (readRecord m) (Record.Walkable cfg) 0 rs ∧ total recLen rs=n*cfg.blocksize ∧
      ∀ e,e∈entriesOf rs ↔ (0<n ∧ (e=(dot.name,dot.inode) ∨ e=(dotdot.name,dotdot.inode))) ∨
        ∃ x∈t.leaves,x.2<n ∧ e∈Htree.blockEntries cfg (t.leaf x.2) := by
  induction n with
  | zero => exact ⟨[],trivial,by simp,by simp [entriesOf]⟩
  | succ n ih =>
    obtain ⟨rs,ht,htotal,hent⟩ := ih (by omega)
    obtain ⟨qs,ht',htotal',hent'⟩ := h.block_records (b := n) (by omega)
    refine ⟨rs++qs,?_,?_,fun e => ?_⟩
    · rw [tiles_append,htotal,Nat.zero_add]
      exact ⟨ht,ht'⟩
    · rw [total_append,htotal,htotal',Nat.add_mul,Nat.one_mul]
    rw [entriesOf_append,List.mem_append,hent e,hent' e]
    constructor
    · rintro ((⟨-,he⟩ | ⟨x,hx,hlt,he⟩) | (⟨-,he⟩ | ⟨x,hx,rfl,he⟩))
      · exact .inl ⟨Nat.succ_pos n,he⟩
      · exact .inr ⟨x,hx,Nat.lt_succ_of_lt hlt,he⟩
      · exact .inl ⟨Nat.succ_pos n,he⟩
      · exact .inr ⟨x,hx,Nat.lt_succ_self _,he⟩
    · rintro (⟨-,he⟩ | ⟨x,hx,hlt,he⟩)
      · rcases Nat.eq_zero_or_pos n with h0 | hpos
        · exact .inr (.inl ⟨h0,he⟩)
        · exact .inl (.inl ⟨hpos,he⟩)
      · rcases Nat.lt_succ_iff_lt_or_eq.mp hlt with hlt | heq
        · exact .inl (.inr ⟨x,hx,hlt,he⟩)
        · exact .inr (.inr ⟨x,hx,heq,heq ▸ he⟩)

end Image

/-- It returns 1 exactly for a directory, linear or indexed, with no entries but `.` and a `..` that
names the parent. -/
theorem dirempty_iff (cfg : Config) (parent : ℕ) :
    (∀ d : Dir,WellFormed cfg d → Dotted d.entries → ∃ b,
      dirempty d.data d.size parent=some b ∧ (b=true ↔ OnlyDots parent d.entries)) ∧
    ∀ t dot dotdot m,Image cfg t dot dotdot m → Dotted (indexedEntries cfg t dot dotdot) → ∃ b,
      dirempty m (t.blocks*cfg.blocksize) parent=some b ∧
        (b=true ↔ OnlyDots parent (indexedEntries cfg t dot dotdot)) := by
  constructor
  · intro d h hd
    obtain ⟨b,he,hb⟩ := dirempty_tiles parent
      (h.layout.tiles.weaken (fun _ _ hr => hr.walkable)) h.layout.size_eq
    exact ⟨b,he,hb.trans (hd.onlyDots_iff parent)⟩
  · intro t dot dotdot m h hd
    obtain ⟨rs,ht,htotal,hent⟩ := h.records (Nat.le_refl _)
    obtain ⟨b,he,hb⟩ := dirempty_tiles parent ht htotal
    refine ⟨b,he,hb.trans (Iff.trans ?_ (hd.onlyDots_iff parent))⟩
    have hmem (e : List UInt8 × ℕ) : e∈entriesOf rs ↔ e∈indexedEntries cfg t dot dotdot := by
      rw [hent e]
      unfold indexedEntries Htree.liveEntries Htree.content
      rw [List.mem_cons,List.mem_cons,List.mem_flatMap]
      constructor
      · rintro (⟨-,he | he⟩ | ⟨x,hx,-,he⟩)
        · exact .inl he
        · exact .inr (.inl he)
        · exact .inr (.inr ⟨x,hx,he⟩)
      · rintro (he | he | ⟨x,hx,he⟩)
        · exact .inl ⟨h.root,.inl he⟩
        · exact .inl ⟨h.root,.inr he⟩
        · exact .inr ⟨x,hx,((h.blocks x.2).mp (.inr (List.mem_map_of_mem hx))).2,he⟩
    simp only [hmem]

def bareImage : Bytes :=
  layRecords [⟨11,12,2,[46]⟩,⟨2,1012,2,[46,46]⟩,⟨0,1024,0,[]⟩,⟨0,1024,0,[]⟩]

def bareIndexed : Htree.IndexedDir :=
  ⟨2,1,[⟨0,1⟩],fun _ => [⟨0,2⟩],fun b i => bareImage (b*1024+i),3⟩

theorem bareImage_image :
    Image smallConfig bareIndexed ⟨11,12,2,[46]⟩ ⟨2,1012,2,[46,46]⟩ bareImage where
  dot := by decide +kernel
  dotdot := by decide +kernel
  node := by decide +kernel
  leaf := by
    intro b hb
    have hl : bareIndexed.leaves.map Prod.snd=[2] := rfl
    rw [hl,List.mem_singleton] at hb
    subst hb
    exact ⟨⟨[⟨0,1024,0,[]⟩],by decide +kernel,by decide +kernel⟩,fun _ _ => rfl⟩
  blocks := by
    intro b
    have hn : bareIndexed.nodes.map Prod.snd=[1] := rfl
    have hl : bareIndexed.leaves.map Prod.snd=[2] := rfl
    have h3 : bareIndexed.blocks=3 := rfl
    rw [hn,hl,h3,List.mem_singleton,List.mem_singleton]
    omega
  root := by decide

theorem dirempty_iff_small :
    (∃ b,dirempty smallDir.data smallDir.size 2=some b ∧
      (b=true ↔ OnlyDots 2 smallDir.entries)) ∧
    ∃ b,dirempty bareImage (3*smallConfig.blocksize) 2=some b ∧
      (b=true ↔ OnlyDots 2
        (indexedEntries smallConfig bareIndexed ⟨11,12,2,[46]⟩ ⟨2,1012,2,[46,46]⟩)) := by
  constructor
  · apply (dirempty_iff smallConfig 2).1 smallDir smallDir_sound.wf
    exact ⟨by decide,by decide,by decide⟩
  · apply (dirempty_iff smallConfig 2).2 bareIndexed _ _ _ bareImage_image
    exact ⟨by decide +kernel,by decide +kernel,by decide +kernel⟩

end Ext2fsX.Directory
