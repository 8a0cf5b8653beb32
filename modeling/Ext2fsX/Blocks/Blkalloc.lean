import Ext2fsX.Blocks.Addresses

namespace Ext2fsX.Blocks

open Function (update update_self)

inductive Panic where
  | tooLarge
  | extend
  | wrong

/-- Each logical number is cast to `unsigned` before it is widened to a `daddr64_t`. -/
def pageoutPath (path : List (ℤ × ℕ)) : List (ℤ × ℕ) := path.map fun x => (unsigned x.1,x.2)

namespace State

def keep (s : State) (lbn : ℤ) (b : Buf) : State :=
  { s with cache := fun l => if l=lbn then some b else s.cache l }

def drop (s : State) (lbn : ℤ) : State :=
  { s with cache := fun l => if l=lbn then none else s.cache l }

variable (g : Geometry) (env : Env)

/-- A block that is not in the cache is read from where `ext2_blockmap` finds the number, cut to 32
bits; a hole is zeros. -/
def pageoutBread (s : State) (lbn : ℤ) : Option (State × Buf) :=
  match s.cache lbn with
  | some b => some (s,b)
  | none =>
    match s.bmaparray g env (int32 lbn) 0 with
    | .ok s d _ =>
      if d=-1 then some (s.keep lbn ⟨d,fun _ => 0⟩,⟨d,fun _ => 0⟩)
      else if env.io s.clock then some (s.tick.keep lbn ⟨d,s.disk d⟩,⟨d,s.disk d⟩)
      else none
    | _ => none

/-- `buf_bwrite`, whose result is not looked at, or `buf_bdwrite`. -/
def writeBack (sync : Bool) (s : State) (lbn : ℤ) (b : Buf) : State :=
  if sync ∧ env.io s.clock=false then s.tick.drop lbn else s.tick.put lbn b

def pageoutIndirect (s : State) (lbn nb : ℤ) : State × Bool :=
  if env.io s.clock then (s.tick.put lbn ⟨unsigned (g.fsbtodb nb),fun _ => 0⟩,true)
  else (s.tick.drop lbn,false)

/-- `fail:` of `ext2_blkalloc`; `got` is `allociblk` and `root` the index of `allocib`. -/
def blkallocFail (s : State) (got : List ℤ) (root : Option ℕ) : State :=
  let s := got.foldl (fun s b => s.blkfree g b g.blocksize) s
  let s :=
    match root with
    | some level => { s with ib := update s.ib level 0 }
    | none => s
  { s with blocks := s.blocks-g.btodb (got.length*g.blocksize) }

/-- The loop of `ext2_blkalloc` over the indirect blocks on the path, and the data block. -/
def blkallocPath (lbn : ℤ) (sync : Bool) (root : Option ℕ) :
    List (ℤ × ℕ) → List ℤ → ℤ → State → State × Errno
  | [],_,_,s => (s,.ok)
  | (l,off)::rest,got,pref,s =>
    match s.pageoutBread g env l with
    | none => (s.tick.blkallocFail g got root,.eio)
    | some (s,b) =>
      match rest with
      | [] =>
        if b.ptrs off=0 then
          match s.alloc g env lbn (s.blkpref env lbn off b.ptrs (int32 l)) g.blocksize with
          | (s,none) => (s.blkallocFail g got root,.enospc)
          | (s,some newb) =>
            (s.writeBack env sync l { b with ptrs := update b.ptrs off newb },.ok)
        else (s,.ok)
      | (l',off')::_ =>
        if b.ptrs off≠0 then blkallocPath lbn sync root rest got pref s
        else
          let pref := if pref=0 then s.blkpref env lbn off' b.ptrs (int32 l) else pref
          match s.alloc g env lbn pref g.blocksize with
          | (s,none) => (s.blkallocFail g got root,.enospc)
          | (s,some newb) =>
            match s.pageoutIndirect g env l' newb with
            | (s,true) =>
              blkallocPath lbn sync root rest (got++[newb]) pref
                (s.writeBack env sync l { b with ptrs := update b.ptrs off newb })
            | (s,false) => (s.blkallocFail g (got++[newb]) root,.eio)

def blkallocDirect (s : State) (lbn size : ℕ) :
    Except Panic (State × Errno) :=
  if s.db lbn≠0 then
    if (lbn+1)*g.blocksize ≤ s.size ∨
        g.fragroundup size≤g.fragroundup (s.size%g.blocksize) then .ok (s,.ok)
    else .error .wrong
  else
    let nsize := if s.size<(lbn+1)*g.blocksize then g.fragroundup size else g.blocksize
    match s.alloc g env lbn (s.blkpref env lbn lbn s.inodePtrs 0) nsize with
    | (s,none) => .ok (s,.enospc)
    | (s,some newb) => .ok ({ s with db := update s.db lbn newb },.ok)

def blkallocIndirect (s : State) (lbn : ℕ) (sync : Bool) :
    State × Errno :=
  match getlbns g.nindir lbn with
  | none => (s,.efbig)
  | some (level,path) =>
    if s.ib level≠0 then s.blkallocPath g env lbn sync none (pageoutPath path) [] 0
    else
      let pref := s.blkpref env lbn (level+12) s.inodePtrs 0
      match s.alloc g env lbn pref g.blocksize with
      | (s,none) => (s,.enospc)
      | (s,some newb) =>
        match s.pageoutIndirect g env (((pageoutPath path).map Prod.fst).headD 0) newb with
        | (s,true) =>
          { s with ib := update s.ib level newb }.blkallocPath g env lbn sync
            (some level) (pageoutPath path) [newb] pref
        | (s,false) => (s.blkallocFail g [newb] none,.eio)

def blkalloc (s : State) (lbn size : ℕ) (sync : Bool) :
    Except Panic (State × Errno) :=
  let nb := int32 ((s.size/g.blocksize : ℕ) : ℤ)
  if g.blocksize < size then .error .tooLarge
  else if nb<12 ∧ nb<lbn then .error .extend
  else if lbn<12 then s.blkallocDirect g env lbn size
  else .ok (s.blkallocIndirect g env lbn sync)

/-- The block that `ext2_blkalloc` finds for data block `bn`, 0 for a hole. -/
def mappedPageout (s : State) (bn : ℕ) : ℤ :=
  if bn<12 then s.db bn
  else
    match getlbns g.nindir bn with
    | none => 0
    | some (level,path) => s.walk g (pageoutPath path) (s.ib level)

end State

/-- The numbers under which `ext2_balloc2` asks for the indirect blocks on the way to `bn`. -/
def ballocNumbers (n bn : ℕ) : List ℤ :=
  if bn<12 then [] else (getlbns n bn).elim [] fun x => x.2.map Prod.fst

def blkallocNumbers (n bn : ℕ) : List ℤ :=
  if bn<12 then [] else (getlbns n bn).elim [] fun x => (pageoutPath x.2).map Prod.fst

/-- The numbers that `ext2_getlbns` has stored; the first pair is that of the inode. -/
def Lbns.numbers : Lbns → List ℤ
  | efbig => []
  | path a => a.tail.map Prod.fst

def bmaparrayNumbers (n bn : ℕ) : List ℤ := (getlbns32 n bn).elim [] Lbns.numbers

def SameBuffers (n bn : ℕ) : Prop :=
  blkallocNumbers n bn=ballocNumbers n bn ∧ bmaparrayNumbers n bn=ballocNumbers n bn

variable (g : Geometry)

structure Visible (bn : ℕ) (s : State) : Prop where
  set : s.mapped g bn≠0
  pageout : s.mappedPageout g bn=s.mapped g bn
  bmaparray : ∀ env : Env,(∀ n,env.io n=true) → ∀ maxrun,∃ s' run,
    s.bmaparray g env bn maxrun=.ok s' (g.fsbtodb (s.mapped g bn)) run

/-- Direct, reserved and free blocks have disk addresses that fit an `int32_t`. -/
structure InVolume (env : Env) (s : State) : Prop where
  direct : ∀ i<12,g.InRange (s.db i)
  window : s.preallocCount≠0 → g.InRange s.preallocBlock
  grants : ∀ n x,env.newBlock n=some x → g.InRange x.block

/-- What either function has allocated for block `bn`, or found there, is visible. -/
def Seen (bn : ℕ) : Prop :=
  ∀ env s,InVolume g env s → ∀ s' size,
    (∀ sync,s.blkalloc g env bn size sync=.ok (s',.ok) → Visible g bn s') ∧
      (s.balloc g env bn size=.ok (s',.ok) → Visible g bn s')

theorem getlbns_far {n bn : ℕ} (h : 12+n+n^2+n^3≤bn) : getlbns n bn=none := by
  unfold getlbns
  rw [if_neg (by omega),if_neg (by omega),if_neg (by omega)]

theorem getlbns32_far {n bn : ℕ} (hn : n≤1024) (h : 12+n+n^2+n^3≤bn) :
    getlbns32 n bn=some .efbig ∨ getlbns32 n bn=none := by
  by_cases hlt : (bn : ℤ)-12<2^31
  · exact .inl (getlbns32_efbig hn h hlt)
  · right
    unfold getlbns32
    simp only [absolute_nat,Option.bind_eq_bind,Option.bind_some]
    rw [if_neg (by omega),checked,if_neg (by omega)]
    rfl

variable {env : Env}

section

variable {g : Geometry} {bn : ℕ}

theorem sameBuffers_direct (n : ℕ) (h : bn<12) : SameBuffers n bn := by
  constructor
  · rw [blkallocNumbers,ballocNumbers,if_pos h,if_pos h]
  · have hpath : getlbns32 n bn=some (.path []) := getlbns32_direct bn h
    rw [bmaparrayNumbers,hpath,ballocNumbers,if_pos h]
    rfl

theorem sameBuffers_far {n : ℕ} (hn : n≤1024) (h : 12+n+n^2+n^3≤bn) : SameBuffers n bn := by
  have hsmall : ¬bn<12 := by omega
  have hnone := getlbns_far h
  constructor
  · rw [blkallocNumbers,ballocNumbers,if_neg hsmall,if_neg hsmall,hnone]
    rfl
  rw [ballocNumbers,if_neg hsmall,hnone,bmaparrayNumbers]
  obtain hpath | hpath := getlbns32_far hn h
  · rw [hpath]
    rfl
  · rw [hpath]
    rfl

theorem unsigned_nonneg (x : ℤ) : 0≤unsigned x := Int.emod_nonneg x (by decide)

theorem not_sameBuffers {n : ℕ} (h3 : 3≤n) (hn : n≤1024) (h1 : 12≤bn) (h2 : bn<12+n+n^2+n^3) : ¬SameBuffers n bn := by
  obtain ⟨r,hr,x,hx,rfl⟩ := data_of_lt h1 h2
  rintro ⟨hsame,-⟩
  have hsmall : ¬rootStart n r+x<12 := by omega
  rw [blkallocNumbers,ballocNumbers,if_neg hsmall,if_neg hsmall,getlbns_root r hr hx] at hsame
  have hneg := (lbnPath_numbers h3 hn hr hx).1
  have hhead := (List.cons.inj hsame).1
  have hlt := hneg _ List.mem_cons_self
  have hge := unsigned_nonneg (indirLbn n r)
  rw [show unsigned (indirLbn n r)=indirLbn n r from hhead] at hge
  omega

theorem fsbtodb_ne_zero {p : ℤ} (hr : g.InRange p) (hp : p≠0) : g.fsbtodb p≠0 := by
  rw [g.fsbtodb_eq hr]
  have hpos := g.sectors_pos
  exact mul_ne_zero hp (by omega)

theorem visible_direct {s : State} (h : bn<12) (hp : s.db bn≠0) (hr : g.InRange (s.db bn)) :
    Visible g bn s := by
  have hmap : s.mapped g bn=s.db bn := if_pos h
  refine ⟨hmap ▸ hp,?_,fun env _ maxrun => ?_⟩
  · rw [hmap,State.mappedPageout,if_pos h]
  · obtain ⟨run,hf⟩ := State.bmaparray_direct g env s maxrun h
    refine ⟨s,run,hf.1.trans ?_⟩
    rw [hmap,if_neg (fsbtodb_ne_zero hr hp)]

theorem takeBlock_inRange {s : State} (hv : InVolume g env s) (bpref : ℤ)
    (hp : (s.takeBlock env bpref).2≠0) : g.InRange (s.takeBlock env bpref).2 := by
  unfold State.takeBlock at hp ⊢
  by_cases hhit : s.preallocCount≠0 ∧ (bpref=s.preallocBlock ∨ bpref+1=s.preallocBlock)
  · rw [if_pos hhit]
    exact hv.window hhit.1
  rw [if_neg hhit] at hp ⊢
  dsimp only at hp ⊢
  cases hx : env.newBlock s.discardPrealloc.clock with
  | none =>
    rw [hx] at hp
    dsimp only at hp
    split at hp <;> exact absurd rfl hp
  | some x =>
    dsimp only
    split <;> exact hv.grants _ _ hx

variable {s s' : State} {size : ℕ}

section

variable (hv : InVolume g env s)

include hv

theorem alloc_inRange {lbn bpref p : ℤ} (h : s.alloc g env lbn bpref size=(s',some p)) :
    p≠0 ∧ g.InRange p := by
  unfold State.alloc at h
  generalize (if (g.blocksCount : ℤ)≤bpref%4294967296 then 0 else bpref)=pref at h
  split at h
  · cases h
  dsimp only at h
  split at h
  case isTrue hpos =>
    obtain rfl := Option.some.inj (Prod.mk.inj h).2
    exact ⟨Int.ne_of_gt hpos,takeBlock_inRange hv _ (Int.ne_of_gt hpos)⟩
  case isFalse => cases h

theorem visible_alloc {bpref : ℤ} {p : ℤ} (hbn : bn<12)
    (h : s.alloc g env bn bpref size=(s',some p)) :
    Visible g bn { s' with db := update s'.db bn p } := by
  obtain ⟨hp,hr⟩ := alloc_inRange hv h
  apply visible_direct hbn
  · change update s'.db bn p bn≠0
    rwa [update_self]
  · change g.InRange (update s'.db bn p bn)
    rwa [update_self]

theorem blkallocDirect_visible (hbn : bn<12)
    (h : s.blkallocDirect g env bn size=.ok (s',.ok)) : Visible g bn s' := by
  unfold State.blkallocDirect at h
  split at h
  case isTrue hp =>
    split at h
    · cases h
      exact visible_direct hbn hp (hv.direct bn hbn)
    · cases h
  case isFalse =>
    dsimp only at h
    split at h
    · cases h
    · next ha =>
      cases h
      exact visible_alloc hv hbn ha

theorem ballocDirect_visible (hbn : bn<12)
    (h : s.ballocDirect g env bn size=.ok (s',.ok)) : Visible g bn s' := by
  unfold State.ballocDirect at h
  split at h
  case isTrue hp =>
    split at h
    · split at h
      · cases h
        exact visible_direct (s := s.tick) hbn hp (hv.direct bn hbn)
      · cases h
    · cases h
  case isFalse =>
    dsimp only at h
    split at h
    · cases h
    · next ha =>
      cases h
      exact visible_alloc hv hbn ha

end

theorem seen_direct (hbn : bn<12) : Seen g bn := by
  intro env s hv s' size
  constructor
  · intro sync h
    unfold State.blkalloc at h
    dsimp only at h
    split at h
    · cases h
    split at h
    · cases h
    · exact blkallocDirect_visible hv hbn h
  · intro h
    unfold State.balloc at h
    rw [if_pos hbn] at h
    by_cases hnext : (bn : ℤ)=s.nextAllocBlock+1
    · rw [if_pos hnext] at h
      have hv' : InVolume g env
          { s with nextAllocBlock := s.nextAllocBlock+1, nextAllocGoal := s.nextAllocGoal+1 } :=
        ⟨hv.direct,hv.window,hv.grants⟩
      exact ballocDirect_visible hv' hbn h
    · rw [if_neg hnext] at h
      exact ballocDirect_visible hv hbn h

theorem seen_far (h : 12+g.nindir+g.nindir^2+g.nindir^3≤bn) : Seen g bn := by
  have hsmall : ¬bn<12 := by omega
  have hnone := getlbns_far h
  intro env s _ s' size
  constructor
  · intro sync hr
    unfold State.blkalloc at hr
    dsimp only at hr
    rw [if_neg hsmall,State.blkallocIndirect,hnone] at hr
    split at hr
    · cases hr
    split at hr <;> cases hr
  · intro hr
    unfold State.balloc at hr
    rw [if_neg hsmall,State.ballocIndirect,hnone] at hr
    cases hr

end

/-- Every transfer succeeds and blocks can be had. -/
def plenty : Env where
  io _ := true
  newBlock n := some ⟨100+n%1000,0,0⟩
  root := true
  regular := false
  symlink := false
  near := 0
  junk := (0,0)

section

variable {g : Geometry}

theorem plenty_alloc {s : State} (hw : s.preallocCount=0) (hfree : 0 < s.freeCount)
    (lbn bpref : ℤ) :
    ∃ s' b,s.alloc g plenty lbn bpref g.blocksize=(s',some b) ∧ s'.cache=s.cache ∧ s'.ib=s.ib ∧
      s'.preallocCount=0 ∧ s'.freeCount=s.freeCount-1 := by
  have hroom : ¬((g.blocksize=g.blocksize ∧ s.freeCount=0) ∨
      (plenty.root=false ∧ s.freeCount < g.rBlocksCount)) := by
    rintro (⟨-,h0⟩ | ⟨hroot,-⟩)
    · omega
    · exact absurd hroot (by decide)
  have hkeep : s.discardPrealloc=s := if_neg (not_not.mpr hw)
  have hpos : (0 : ℤ)<((100+s.clock%1000 : ℕ) : ℤ) := by omega
  unfold State.alloc State.takeBlock
  rw [if_neg hroom,if_neg (fun hc => hc.1 hw),hkeep]
  simp only [plenty,Bool.false_eq_true,if_false,if_pos hpos]
  exact ⟨_,_,rfl,rfl,rfl,hw,rfl⟩

theorem blkallocPath_grows (lbn : ℤ) (root : Option ℕ) (path : List (ℤ × ℕ)) {s : State} {b : Buf}
    {l : ℤ} (off : ℕ) (hnum : ∀ c∈(l,off)::path,0 ≤ c.1)
    (hnd : (((l,off)::path).map Prod.fst).Nodup) (hw : s.preallocCount=0)
    (hfree : path.length < s.freeCount) (hb : s.cache l=some b) (hzero : b.ptrs off=0)
    (got : List ℤ) (pref : ℤ) :
    ∃ s',s.blkallocPath g plenty lbn false root ((l,off)::path) got pref=(s',.ok) ∧
      s'.ib=s.ib ∧ ∀ m<0,s'.cache m=s.cache m := by
  have hread : s.pageoutBread g plenty l=some (s,b) := by rw [State.pageoutBread,hb]
  have hl : 0≤l := hnum _ List.mem_cons_self
  induction path generalizing s b l off got pref with
  | nil =>
    obtain ⟨s1,p,ha,hc,hi,-,-⟩ := plenty_alloc (g := g) hw (by simpa using hfree) lbn
      (s.blkpref plenty lbn off b.ptrs (int32 l))
    refine ⟨s1.writeBack plenty false l { b with ptrs := update b.ptrs off p },?_,?_,?_⟩
    · rw [State.blkallocPath,hread]
      dsimp only
      rw [if_pos hzero,ha]
    · exact hi
    · intro m hm
      change (if m=l then _ else s1.cache m)=s.cache m
      rw [if_neg (by omega),hc]
  | cons c path ih =>
    obtain ⟨l',off'⟩ := c
    rw [List.length_cons] at hfree
    have hl' : 0≤l' := hnum _ (List.mem_cons_of_mem _ List.mem_cons_self)
    have hne : l'≠l := by
      intro he
      rw [List.map_cons,List.map_cons,List.nodup_cons] at hnd
      exact hnd.1 (he ▸ List.mem_cons_self)
    generalize hq : (if pref=0 then s.blkpref plenty lbn off' b.ptrs (int32 l) else pref)=q
    obtain ⟨s1,p,ha,hc,hi,hw1,hf1⟩ := plenty_alloc (g := g) hw (by omega) lbn q
    -- the new block is written under the next number, the pointer to it under this one
    let s2 := s1.tick.put l' ⟨unsigned (g.fsbtodb p),fun _ => 0⟩
    let s3 := s2.writeBack plenty false l { b with ptrs := update b.ptrs off p }
    have hcache (m : ℤ) : s3.cache m=if m=l then some { b with ptrs := update b.ptrs off p }
        else if m=l' then some ⟨unsigned (g.fsbtodb p),fun _ => 0⟩ else s1.cache m := rfl
    have hb3 : s3.cache l'=some ⟨unsigned (g.fsbtodb p),fun _ => 0⟩ := by
      rw [hcache,if_neg hne,if_pos rfl]
    obtain ⟨s',hrun,hi',hc'⟩ := ih (s := s3) (l := l') off'
      (fun c hm => hnum c (List.mem_cons_of_mem _ hm)) (List.nodup_cons.mp hnd).2 hw1
      (by change path.length < s1.freeCount; omega) hb3 rfl (got++[p]) q
      (by rw [State.pageoutBread,hb3]) hl'
    refine ⟨s',?_,hi'.trans hi,?_⟩
    · rw [State.blkallocPath,hread]
      dsimp only
      rw [if_neg (not_not.mpr hzero),hq,ha]
      exact hrun
    · intro m hm
      rw [hc' m hm,hcache,if_neg (by omega),if_neg (by omega),hc]

end

/-- A file of `bn + 1` blocks with only the root `r` of the last one, which is empty and in the
cache. -/
def emptyRoot (r bn : ℕ) : State where
  db _ := 0
  ib := update (fun _ => 0) r 1
  size := (bn+1)*g.blocksize
  blocks := g.btodb g.blocksize
  preallocBlock := 0
  preallocCount := 0
  nextAllocBlock := 0
  nextAllocGoal := 0
  cache l := if l=indirLbn g.nindir r then some ⟨g.fsbtodb 1,fun _ => 0⟩ else none
  disk _ _ := 0
  freeCount := 100
  freed := []
  clock := 0

section

variable {g : Geometry}

theorem emptyRoot_ib (g : Geometry) (r bn : ℕ) : (emptyRoot g r bn).ib r=1 := by simp [emptyRoot]

theorem emptyRoot_inVolume (g : Geometry) (r bn : ℕ) : InVolume g plenty (emptyRoot g r bn) where
  direct _ _ := g.inRange_small (le_refl (0 : ℤ)) (by decide : (0 : ℤ)<2000)
  window h := absurd rfl h
  grants n x hx := by
    obtain rfl := Option.some.inj hx
    exact g.inRange_small (by omega) (by change ((100+n%1000 : ℕ) : ℤ)<2000; omega)

theorem int32_unsigned {x : ℤ} (h1 : -2^31≤x) (h2 : x<2^31) : int32 (unsigned x)=x := by
  rw [int32,unsigned,Int.bmod_def]
  omega

theorem emptyRoot_bread (bn : ℕ) {r : ℕ} (hr : r<3) :
    ∃ (s : State) (d : ℤ),(emptyRoot g r bn).pageoutBread g plenty (unsigned (indirLbn g.nindir r))=
        some (s.keep (unsigned (indirLbn g.nindir r)) ⟨d,fun _ => 0⟩,⟨d,fun _ => 0⟩) ∧
      s.cache=(emptyRoot g r bn).cache ∧ s.ib=(emptyRoot g r bn).ib ∧ s.preallocCount=0 ∧
      s.freeCount=100 := by
  obtain ⟨h256,h1024⟩ := State.nindir_bounds g
  have hroot : indirLbn g.nindir r=metaLbn g.nindir r r 0 := by
    rw [indirLbn_eq (x := 0) (Nat.pow_pos (by omega)),Nat.zero_div]
  have hbound := metaLbn_bound (by omega) h1024 hr (Nat.pow_pos (by omega)) r (by omega)
  rw [Nat.zero_div,← hroot] at hbound
  have hmiss : (emptyRoot g r bn).cache (unsigned (indirLbn g.nindir r))=none := by
    have hge := unsigned_nonneg (indirLbn g.nindir r)
    exact if_neg (by omega)
  have hpath : getlbns32 g.nindir (indirLbn g.nindir r)=
      some (.path [(indirLbn g.nindir r,(r : ℤ))]) := by
    have h := getlbns32_meta (by omega) h1024 hr le_rfl (q := 0) (Nat.pow_pos (by omega))
    rw [← hroot,Nat.sub_self] at h
    exact h
  have hib : (emptyRoot g r bn).ib (r : ℤ).toNat=1 := by
    rw [Int.toNat_natCast,emptyRoot_ib]
  have haddr : g.fsbtodb 1≠0 := fsbtodb_ne_zero (g.inRange_small (by decide) (by decide)) (by decide)
  have hneg : g.fsbtodb 1≠-1 := by
    rw [g.fsbtodb_eq (g.inRange_small (by decide) (by decide))]
    omega
  have hmap : (emptyRoot g r bn).bmaparray g plenty (indirLbn g.nindir r) 0=
      .ok (emptyRoot g r bn) (g.fsbtodb 1) 0 := by
    unfold State.bmaparray
    rw [hpath]
    dsimp only
    rw [State.bmapLoop,hib]
    dsimp only
    rw [if_neg haddr]
  refine ⟨(emptyRoot g r bn).tick,g.fsbtodb 1,?_,rfl,rfl,rfl,rfl⟩
  rw [State.pageoutBread,hmiss]
  rw [int32_unsigned (by omega) (by omega),hmap]
  dsimp only
  rw [if_neg hneg]
  rfl

theorem path_range {n r x : ℕ} (h1 : 1≤n) (hn : n≤1024) (hr : r<3) (hx : x<n^(r+1)) :
    ∀ c∈lbnPath n x (r+1) (n^r) (indirLbn n r),-2^31 ≤ c.1 ∧ c.1<0 := by
  intro c hc
  have hmem : Prod.map id (Nat.cast : ℕ → ℤ) c∈descend n r x (r+1) := by
    rw [← lbnPath_eq h1 r x r,← indirLbn_eq hx]
    exact List.mem_map_of_mem hc
  obtain ⟨t,ht,he⟩ := descend_mem hmem
  have hb := metaLbn_bound h1 hn hr hx t (by omega)
  rw [← he] at hb
  exact ⟨by have := hb.1; simp only [Prod.map_fst,id] at this; omega,hb.2⟩

theorem pageoutPath_nodup {path : List (ℤ × ℕ)} (hrange : ∀ c∈path,-2^31 ≤ c.1 ∧ c.1<0)
    (hnd : (path.map Prod.fst).Nodup) : ((pageoutPath path).map Prod.fst).Nodup := by
  have hmap : (pageoutPath path).map Prod.fst=(path.map Prod.fst).map unsigned := by
    rw [pageoutPath,List.map_map,List.map_map]
    rfl
  rw [hmap]
  refine hnd.map_on ?_
  have hback (a : ℤ) (ha : a∈path.map Prod.fst) : int32 (unsigned a)=a := by
    obtain ⟨c,hc,rfl⟩ := List.mem_map.mp ha
    obtain ⟨hlo,hhi⟩ := hrange c hc
    exact int32_unsigned hlo (by omega)
  intro a ha b hb he
  rw [← hback a ha,he,hback b hb]

theorem blkallocPath_bread {s s1 : State} {b : Buf} {l : ℤ}
    (hread : s.pageoutBread g env l=some (s1,b)) (hb : s1.cache l=some b) (lbn : ℤ) (sync : Bool)
    (root : Option ℕ) (off : ℕ) (path : List (ℤ × ℕ)) (got : List ℤ) (pref : ℤ) :
    s.blkallocPath g env lbn sync root ((l,off)::path) got pref=
      s1.blkallocPath g env lbn sync root ((l,off)::path) got pref := by
  have hread1 : s1.pageoutBread g env l=some (s1,b) := by rw [State.pageoutBread,hb]
  rw [State.blkallocPath,State.blkallocPath,hread,hread1]

theorem not_seen {bn : ℕ} (h1 : 12≤bn) (h2 : bn<12+g.nindir+g.nindir^2+g.nindir^3) :
    ¬Seen g bn := by
  obtain ⟨h256,h1024⟩ := State.nindir_bounds g
  have hbig := addressable_lt g
  obtain ⟨r,hr,x,hx,hbn⟩ := data_of_lt h1 h2
  have hget : getlbns g.nindir bn=
      some (r,lbnPath g.nindir x (r+1) (g.nindir^r) (indirLbn g.nindir r)) :=
    hbn ▸ getlbns_root r hr hx
  have hrange := path_range (by omega) h1024 hr hx
  have hnd := pageoutPath_nodup hrange (lbnPath_numbers (by omega) h1024 hr hx).2
  have hlen := lbnPath_length g.nindir x (r+1) (g.nindir^r) (indirLbn g.nindir r)
  rw [lbnPath] at hget hrange hnd hlen
  generalize x/g.nindir^r%g.nindir=off at hget hrange hnd hlen
  generalize lbnPath g.nindir x r (g.nindir^r/g.nindir)
    (indirLbn g.nindir r+1-(off*g.nindir^r : ℕ))=rest at hget hrange hnd hlen
  obtain ⟨s1,d,hread,hcache,hib,hw,hfree⟩ := emptyRoot_bread (g := g) bn hr
  -- the walk goes on as if the root had been in the cache under its other number
  let s2 := s1.keep (unsigned (indirLbn g.nindir r)) ⟨d,fun _ => 0⟩
  have hkept : s2.cache (unsigned (indirLbn g.nindir r))=some ⟨d,fun _ => 0⟩ := if_pos rfl
  obtain ⟨s',hrun,hib',hcache'⟩ := blkallocPath_grows (g := g) (s := s2) bn none
    (pageoutPath rest) (l := unsigned (indirLbn g.nindir r)) off
    (by
      intro c hc
      rcases List.mem_cons.mp hc with rfl | hc
      · exact unsigned_nonneg _
      · obtain ⟨c',-,rfl⟩ := List.mem_map.mp hc
        exact unsigned_nonneg _)
    hnd hw (by
      change (rest.map _).length < s1.freeCount
      rw [List.length_map,hfree]
      rw [List.length_cons] at hlen
      omega) hkept rfl [] 0
  have hok : (emptyRoot g r bn).blkalloc g plenty bn g.blocksize false=.ok (s',.ok) := by
    have hsize : (emptyRoot g r bn).size/g.blocksize=bn+1 :=
      Nat.mul_div_cancel _ (State.blocksize_pos g)
    unfold State.blkalloc
    rw [hsize,int32_eq (by omega) (by omega),if_neg (Nat.lt_irrefl _),if_neg (by omega),
      if_neg (by omega),State.blkallocIndirect,hget]
    dsimp only
    rw [emptyRoot_ib,if_pos (by decide)]
    exact congrArg Except.ok ((blkallocPath_bread hread hkept _ _ _ _ _ _ _).trans hrun)
  intro hseen
  have hvis := (hseen plenty _ (emptyRoot_inVolume g r bn) s' g.blocksize).1 false hok
  apply hvis.set
  have hneg := (hrange _ List.mem_cons_self).2
  have hold : s'.cache (indirLbn g.nindir r)=some ⟨g.fsbtodb 1,fun _ => 0⟩ := by
    have hne : indirLbn g.nindir r≠unsigned (indirLbn g.nindir r) := by
      have hge := unsigned_nonneg (indirLbn g.nindir r)
      omega
    rw [hcache' _ hneg]
    change (if _ then _ else s1.cache _)=_
    rw [if_neg hne,hcache]
    exact if_pos rfl
  have hzero : s'.child g (indirLbn g.nindir r) (s'.ib r) off=0 := by
    rw [State.child,hold]
  rw [State.mapped,if_neg (by omega),hget]
  dsimp only
  rw [State.walk,hzero,State.walk_zero]
  exact ite_self _

end

def Bmap.daddr : Bmap → Option ℤ
  | ok _ d _ => some d
  | _ => none

end Ext2fsX.Blocks
