import Ext2fsX.Blocks.Tree
import Ext2fsX.Blocks.Lbns

namespace Ext2fsX.Blocks

def Geometry.seqinc (g : Geometry) : ℕ := g.blocksize/g.fsize

/-- The loop over `is_sequential`: from pointer `i` on, at most `k` of them. -/
def seqRun (seqinc maxrun : ℕ) (p : ℕ → ℤ) : ℕ → ℕ → ℕ → ℕ
  | 0,_,run => run
  | k+1,i,run =>
    if run < maxrun ∧ p i=p (i-1)+seqinc then seqRun seqinc maxrun p k (i+1) (run+1) else run

/-- What `ext2_bmaparray` returns: an error, or the disk address and the run in `*runp`. -/
inductive Bmap where
  | overflow
  | efbig
  | eio
  | ok (s : State) (daddr : ℤ) (run : ℕ)

namespace State

/-- The loop over the indirect blocks; `daddr` is where the first is. A block without an address is
looked for in the cache only. -/
def bmapLoop (g : Geometry) (env : Env) (bn : ℤ) (maxrun : ℕ) :
    List (ℤ × ℤ) → ℤ → ℕ → State → Option (State × ℤ × ℕ)
  | [],daddr,run,s => some (s,daddr,run)
  | (metalbn,off)::rest,daddr,run,s =>
    if metalbn=bn then some (s,daddr,run)
    else if daddr=0 ∧ (s.cache metalbn).isNone then some (s,daddr,run)
    else
      match s.metaBread g env metalbn daddr with
      | none => none
      | some (s,b) =>
        let daddr := b.ptrs off.toNat
        let run :=
          if rest.isEmpty ∧ daddr≠0 then
            seqRun g.seqinc maxrun b.ptrs (g.nindir-(off.toNat+1)) (off.toNat+1) run
          else run
        bmapLoop g env bn maxrun rest daddr run s

/-- `ext2_bmaparray`, with `runp` given and `runb` not. -/
def bmaparray (g : Geometry) (env : Env) (s : State) (bn : ℤ) (maxrun : ℕ) : Bmap :=
  match getlbns32 g.nindir bn with
  | none => .overflow
  | some .efbig => .efbig
  | some (.path []) =>
    let d := g.fsbtodb (s.db bn.toNat)
    if d=0 then .ok s (-1) 0
    else .ok s d (seqRun g.seqinc maxrun s.db (12-(bn.toNat+1)) (bn.toNat+1) 0)
  | some (.path ((_,level)::path)) =>
    match s.bmapLoop g env bn maxrun path (s.ib level.toNat) 0 with
    | none => .eio
    | some (s,daddr,run) =>
      .ok s (if g.fsbtodb daddr=0 then -1 else g.fsbtodb daddr) run

end State

/-- How `ext2_blockmap` ends: with a panic, an error, or a disk address and a run of bytes. -/
inductive Blockmap where
  | panic
  | failed (b : Bmap)
  | ok (s : State) (daddr : ℤ) (run : ℕ)

namespace State

/-- `ext2_blockmap`. The block number is cut to 32 bits. -/
def blockmap (g : Geometry) (env : Env) (s : State) (offset size maxrun : ℕ) : Blockmap :=
  if offset%g.blocksize≠0 then .panic
  else if size%g.devBlockSize≠0 then .panic
  else
    let bn := ((offset/g.blocksize : ℕ) : ℤ).bmod (2^32)
    match s.bmaparray g env bn maxrun with
    | .ok s daddr nblks =>
      let retsize :=
        if bn<0 then (nblks+1)*g.blocksize
        else if daddr=-1 ∨ nblks=0 then g.fsize
        else nblks*g.blocksize+g.fsize
      .ok s daddr (if retsize < size then retsize else size)
    | b => .failed b

def walk (g : Geometry) (s : State) : List (ℤ × ℕ) → ℤ → ℤ
  | [],nb => nb
  | (l,off)::rest,nb => if nb=0 then 0 else s.walk g rest (s.child g l nb off)

/-- The block that the tree has for data block `bn`, 0 for a hole. -/
def mapped (g : Geometry) (s : State) (bn : ℕ) : ℤ :=
  if bn<12 then s.db bn
  else
    match getlbns g.nindir bn with
    | none => 0
    | some (level,path) => s.walk g path (s.ib level)

end State

def Geometry.InRange (g : Geometry) (b : ℤ) : Prop :=
  0≤b ∧ b<((2^31/(g.blocksize/512) : ℕ) : ℤ)

namespace State

def WalkOk (g : Geometry) (s : State) : List (ℤ × ℕ) → ℤ → Prop
  | [],nb => g.InRange nb
  | (l,off)::rest,nb =>
    g.InRange nb ∧ if nb=0 then s.cache l=none else s.WalkOk g rest (s.child g l nb off)

structure Mappable (g : Geometry) (s : State) : Prop where
  direct : ∀ i<12,g.InRange (s.db i)
  indirect : ∀ bn level path,12≤bn → getlbns g.nindir bn=some (level,path) →
    s.WalkOk g path (s.ib level)

end State

/-- A hole is -1; else a disk address and a run over blocks that the tree has one after the other.
-/
def Right (g : Geometry) (s : State) (bn size : ℕ) (b : Blockmap) : Prop :=
  ∃ s' d r,b=.ok s' d r ∧ (d=-1 ↔ s.mapped g bn=0) ∧
    (d≠-1 → r ≤ size ∧ ∀ k : ℕ,k*g.blocksize < r → s.mapped g (bn+k)≠0 ∧
      s.mapped g (bn+k)*((g.blocksize/512 : ℕ) : ℤ)=d+k*((g.blocksize/512 : ℕ) : ℤ))

theorem seqRun_spec (seqinc maxrun : ℕ) (p : ℕ → ℤ) (k i run : ℕ) :
    run ≤ seqRun seqinc maxrun p k i run ∧ seqRun seqinc maxrun p k i run ≤ run+k ∧
      ∀ j,run+j < seqRun seqinc maxrun p k i run → p (i+j)=p (i+j-1)+seqinc := by
  induction k generalizing i run with
  | zero =>
    refine ⟨le_rfl,le_rfl,fun j hj => ?_⟩
    unfold seqRun at hj
    omega
  | succ k ih =>
    unfold seqRun
    split
    · next h =>
      obtain ⟨h1,h2,h3⟩ := ih (i+1) (run+1)
      refine ⟨by omega,by omega,fun j hj => ?_⟩
      cases j with
      | zero => exact h.2
      | succ j =>
        have hr := h3 j (by omega)
        rw [show i+1+j=i+(j+1) by omega] at hr
        exact hr
    · exact ⟨le_rfl,by omega,fun j hj => by omega⟩

theorem seqRun_pointers (seqinc maxrun : ℕ) (p : ℕ → ℤ) (k i : ℕ) :
    ∀ j ≤ seqRun seqinc maxrun p k (i+1) 0,p (i+j)=p i+j*seqinc := by
  intro j
  obtain ⟨-,-,hstep⟩ := seqRun_spec seqinc maxrun p k (i+1) 0
  induction j with
  | zero => simp
  | succ j ih =>
    intro hj
    have hs := hstep j (by omega)
    rw [show i+1+j-1=i+j by omega,show i+1+j=i+(j+1) by omega,ih (by omega)] at hs
    rw [hs]
    push_cast
    ring

theorem lbnPath_split {n : ℕ} (h1 : 1≤n) (x r : ℕ) (metalbn : ℤ) :
    ∃ pre l,∀ j<n,lbnPath n (x/n*n+j) (r+1) (n^r) metalbn=pre++[(l,j)] := by
  induction r generalizing metalbn with
  | zero =>
    refine ⟨[],metalbn,fun j hj => ?_⟩
    simp only [lbnPath,Nat.pow_zero,Nat.div_one,List.nil_append]
    rw [Nat.mul_comm,Nat.mul_add_mod,Nat.mod_eq_of_lt hj]
  | succ r ih =>
    have hpow : n^(r+1)/n=n^r := by rw [Nat.pow_succ,Nat.mul_div_cancel _ h1]
    have hoff (j : ℕ) (hj : j<n) : (x/n*n+j)/n^(r+1)=x/n/n^r := by
      rw [Nat.pow_succ,Nat.mul_comm (n^r) n,← Nat.div_div_eq_div_mul,Nat.mul_comm (x/n) n,
        Nat.mul_add_div h1,Nat.div_eq_of_lt hj,Nat.add_zero]
    obtain ⟨pre,l,hp⟩ := ih (metalbn+1-(x/n/n^r%n*n^(r+1) : ℕ))
    refine ⟨(metalbn,x/n/n^r%n)::pre,l,fun j hj => ?_⟩
    rw [lbnPath,hoff j hj,hpow,hp j hj,List.cons_append]

namespace State

variable {g : Geometry} {env : Env} {s : State} (path : List (ℤ × ℕ))

theorem walk_zero : s.walk g path 0=0 := by
  cases path with
  | nil => rfl
  | cons c path => rw [walk,if_pos rfl]

theorem walk_append (path rest : List (ℤ × ℕ)) (nb : ℤ) :
    s.walk g (path++rest) nb=s.walk g rest (s.walk g path nb) := by
  induction path generalizing nb with
  | nil => rfl
  | cons c path ih =>
    rw [List.cons_append,walk,walk,ih]
    by_cases hz : nb=0
    · rw [if_pos hz,if_pos hz,walk_zero]
    · rw [if_neg hz,if_neg hz]

theorem walk_snoc (l : ℤ) (off : ℕ) (nb : ℤ) : s.walk g (path++[(l,off)]) nb=
      if s.walk g path nb=0 then 0 else s.child g l (s.walk g path nb) off :=
  walk_append path [(l,off)] nb

theorem WalkOk.range {path : List (ℤ × ℕ)} {nb : ℤ} (h : s.WalkOk g path nb) :
    g.InRange (s.walk g path nb) := by
  induction path generalizing nb with
  | nil => exact h
  | cons c path ih =>
    obtain ⟨hr,hrest⟩ := h
    unfold walk
    split
    · next hz => exact hz ▸ hr
    · next hz =>
      rw [if_neg hz] at hrest
      exact ih hrest

theorem metaBread_ok (hio : ∀ n,env.io n=true) (s : State) (l nb : ℤ) :
    ∃ s' b,s.metaBread g env l nb=some (s',b) ∧ (∀ i,b.ptrs i=s.child g l nb i) ∧
      s'.disk=s.disk ∧ ∀ l'≠l,s'.cache l'=s.cache l' := by
  unfold metaBread child
  cases hc : s.cache l with
  | some b => exact ⟨s,b,rfl,fun _ => rfl,rfl,fun _ _ => rfl⟩
  | none =>
    rw [hio]
    exact ⟨_,_,rfl,fun _ => rfl,rfl,fun l' hl => if_neg hl⟩

def SameOn (s s' : State) : Prop :=
  s'.disk=s.disk ∧ ∀ c ∈ path,s'.cache c.1=s.cache c.1

theorem SameOn.child {path : List (ℤ × ℕ)} {s' : State} (h : SameOn path s s') {l : ℤ} {off : ℕ}
    (hm : (l,off) ∈ path) (nb : ℤ) (i : ℕ) : s'.child g l nb i=s.child g l nb i := by
  unfold State.child
  rw [h.2 (l,off) hm,h.1]

/-- The loop comes to the pointer that the tree has, and counts a run in the last indirect block. -/
theorem bmapLoop_ok (hio : ∀ n,env.io n=true) {bn : ℤ} (maxrun : ℕ) {l : ℤ} {off : ℕ}
    (pre : List (ℤ × ℕ)) {nb : ℤ} {s' : State} (hok : s.WalkOk g (pre++[(l,off)]) nb)
    (hs : SameOn (pre++[(l,off)]) s s') (hne : ∀ c ∈ pre++[(l,off)],c.1≠bn)
    (hnd : ((pre++[(l,off)]).map Prod.fst).Nodup) :
    ∃ s'',s'.bmapLoop g env bn maxrun ((pre++[(l,off)]).map (Prod.map id (Nat.cast : ℕ → ℤ))) nb 0=
      some (s'',s.walk g (pre++[(l,off)]) nb,if s.walk g (pre++[(l,off)]) nb=0 then 0
        else seqRun g.seqinc maxrun (s.child g l (s.walk g pre nb)) (g.nindir-(off+1)) (off+1) 0)
      := by
  induction pre generalizing nb s' with
  | nil =>
    have hl : (l,off) ∈ [(l,off)] := List.mem_singleton_self _
    simp only [List.nil_append,List.map_cons,List.map_nil,Prod.map,id] at hok hs hne hl ⊢
    unfold bmapLoop
    rw [if_neg (hne _ hl)]
    by_cases hz : nb=0
    · have hc := hok.2
      rw [if_pos hz,← hs.2 _ hl] at hc
      rw [if_pos ⟨hz,by rw [hc]; rfl⟩,hz]
      exact ⟨s',by simp [walk]⟩
    obtain ⟨s1,b,hb,hptr,-,-⟩ := metaBread_ok (g := g) hio s' l nb
    have hfun : b.ptrs=s.child g l nb := by
      funext i
      rw [hptr,hs.child hl]
    rw [if_neg (fun h => hz h.1),hb]
    simp only [hfun,bmapLoop,walk,if_neg hz,Int.toNat_natCast,List.isEmpty_nil,true_and]
    by_cases hd : s.child g l nb off=0
    · simp [hd]
    · simp [hd]
  | cons c pre ih =>
    obtain ⟨l0,o0⟩ := c
    have hl : (l0,o0) ∈ (l0,o0)::(pre++[(l,off)]) := List.mem_cons_self
    simp only [List.cons_append,List.map_cons,Prod.map,id] at hok hs hne hnd ⊢
    unfold bmapLoop
    rw [if_neg (hne _ hl)]
    by_cases hz : nb=0
    · have hc := hok.2
      rw [if_pos hz,← hs.2 _ hl] at hc
      rw [if_pos ⟨hz,by rw [hc]; rfl⟩,hz]
      exact ⟨s',by simp [walk]⟩
    obtain ⟨s1,b,hb,hptr,hdisk,hcache⟩ := metaBread_ok (g := g) hio s' l0 nb
    have hrest := hok.2
    rw [if_neg hz] at hrest
    have hnext : b.ptrs o0=s.child g l0 nb o0 := by rw [hptr,hs.child hl]
    obtain ⟨hnot,hnd'⟩ := List.nodup_cons.mp hnd
    have hs1 : SameOn (pre++[(l,off)]) s s1 := by
      refine ⟨hdisk.trans hs.1,fun c hc => ?_⟩
      have hcne : c.1≠l0 := by
        rintro rfl
        exact hnot (List.mem_map_of_mem hc)
      rw [hcache c.1 hcne]
      exact hs.2 c (List.mem_cons_of_mem _ hc)
    obtain ⟨s'',he⟩ := ih hrest hs1 (fun c hc => hne c (List.mem_cons_of_mem _ hc)) hnd'
    have hempty : ((pre++[(l,off)]).map (Prod.map id (Nat.cast : ℕ → ℤ))).isEmpty=false := by
      cases pre <;> rfl
    rw [if_neg (fun h => hz h.1),hb]
    refine ⟨s'',?_⟩
    simp only [hempty,Bool.false_eq_true,false_and,if_false,Int.toNat_natCast,hnext]
    simp only [walk,if_neg hz]
    exact he

theorem mapped_root {r x : ℕ} (hr : r<3) (hx : x<g.nindir^(r+1)) :
    s.mapped g (rootStart g.nindir r+x)=
      s.walk g (lbnPath g.nindir x (r+1) (g.nindir^r) (indirLbn g.nindir r)) (s.ib r) := by
  have h12 := rootStart_ge g.nindir r
  unfold mapped
  rw [if_neg (by omega),getlbns_root r hr hx]

theorem nindir_bounds (g : Geometry) : 256≤g.nindir ∧ g.nindir≤1024 := by
  have hle : 2^g.logBlockSize≤2^2 := Nat.pow_le_pow_right (by decide) g.log_le
  have hpos : 0<2^g.logBlockSize := Nat.pow_pos (by decide)
  unfold Geometry.nindir
  omega

/-- The pointer of the tree, and a run of pointers that follow on from it. -/
structure Found (g : Geometry) (s : State) (bn : ℕ) (b : Bmap) (s' : State) (run : ℕ) : Prop where
  result : b=.ok s' (if g.fsbtodb (s.mapped g bn)=0 then -1 else g.fsbtodb (s.mapped g bn)) run
  run : s.mapped g bn≠0 → ∀ k ≤ run,s.mapped g (bn+k)=s.mapped g bn+k*g.seqinc

theorem bmaparray_indirect (hm : s.Mappable g) (hio : ∀ n,env.io n=true) (maxrun : ℕ) {r x : ℕ}
    (hr : r<3) (hx : x<g.nindir^(r+1)) :
    ∃ s' run,Found g s (rootStart g.nindir r+x)
      (s.bmaparray g env (rootStart g.nindir r+x : ℕ) maxrun) s' run := by
  obtain ⟨h256,h1024⟩ := nindir_bounds g
  have hpos : 1≤g.nindir := by omega
  obtain ⟨path,hget,h32⟩ := getlbns32_of_getlbns hpos h1024 r hr hx
  have hpath := getlbns_root r hr hx
  rw [hget] at hpath
  cases hpath
  obtain ⟨pre,l,hsplit⟩ := lbnPath_split hpos x r (indirLbn g.nindir r)
  have hself := hsplit (x%g.nindir) (Nat.mod_lt _ hpos)
  rw [Nat.div_add_mod'] at hself
  obtain ⟨hneg,hnd⟩ := lbnPath_numbers (by omega) h1024 hr hx
  have hok := hm.indirect _ r _ (by have := rootStart_ge g.nindir r; omega) hget
  have hmap := mapped_root (s := s) hr hx
  rw [hself] at h32 hneg hnd hok hmap
  obtain ⟨s',he⟩ := bmapLoop_ok hio maxrun pre hok ⟨rfl,fun _ _ => rfl⟩
    (fun c hc => ne_of_lt (lt_of_lt_of_le (hneg c hc) (Int.natCast_nonneg (rootStart g.nindir r+x))))
    hnd
  rw [← hmap] at he
  generalize hrun : (if s.mapped g (rootStart g.nindir r+x)=0 then 0
    else seqRun g.seqinc maxrun (s.child g l (s.walk g pre (s.ib r)))
      (g.nindir-(x%g.nindir+1)) (x%g.nindir+1) 0)=run at he
  refine ⟨s',run,?_,?_⟩
  · unfold bmaparray
    rw [h32]
    simp only [Int.toNat_natCast,he]
  intro hne k hk
  -- block `k` of the run has the same path but for the last index
  rw [if_neg hne] at hrun
  rw [← hrun] at hk
  have hlen := (seqRun_spec g.seqinc maxrun (s.child g l (s.walk g pre (s.ib r)))
    (g.nindir-(x%g.nindir+1)) (x%g.nindir+1) 0).2.1
  have hlt := Nat.mod_lt x hpos
  have hdm := Nat.div_add_mod' x g.nindir
  have hxk : x+k<g.nindir^(r+1) := by
    have hq : x/g.nindir<g.nindir^r := by
      rw [Nat.div_lt_iff_lt_mul hpos,← Nat.pow_succ]
      exact hx
    have hmul : (x/g.nindir+1)*g.nindir≤g.nindir^(r+1) := Nat.mul_le_mul_right g.nindir hq
    rw [Nat.succ_mul] at hmul
    omega
  have hpathk := hsplit (x%g.nindir+k) (by omega)
  rw [show x/g.nindir*g.nindir+(x%g.nindir+k)=x+k by omega] at hpathk
  have hpre : s.walk g pre (s.ib r)≠0 := by
    intro hz
    rw [hmap,walk_snoc,if_pos hz] at hne
    exact hne rfl
  rw [hmap,walk_snoc,if_neg hpre,Nat.add_assoc,mapped_root hr hxk,hpathk,walk_snoc,if_neg hpre]
  exact seqRun_pointers g.seqinc maxrun _ _ _ k hk

theorem bmaparray_direct (g : Geometry) (env : Env) (s : State) (maxrun : ℕ) {bn : ℕ} (h : bn<12) :
    ∃ run,Found g s bn (s.bmaparray g env bn maxrun) s run := by
  have hmap (i : ℕ) (hi : i<12) : s.mapped g i=s.db i := if_pos hi
  refine ⟨if g.fsbtodb (s.db bn)=0 then 0
    else seqRun g.seqinc maxrun s.db (12-(bn+1)) (bn+1) 0,?_,?_⟩
  · unfold bmaparray
    rw [getlbns32_direct bn h,hmap bn h]
    simp only [Int.toNat_natCast]
    split <;> rfl
  · intro _ k hk
    split at hk
    · rw [Nat.le_zero.mp hk]
      simp
    · have hlen := (seqRun_spec g.seqinc maxrun s.db (12-(bn+1)) (bn+1) 0).2.1
      rw [hmap bn h,hmap (bn+k) (by omega)]
      exact seqRun_pointers g.seqinc maxrun s.db _ bn k hk

theorem bmaparray_found (hm : s.Mappable g) (hio : ∀ n,env.io n=true) (maxrun : ℕ) {bn : ℕ}
    (h : bn<12+g.nindir+g.nindir^2+g.nindir^3) :
    ∃ s' run,Found g s bn (s.bmaparray g env bn maxrun) s' run := by
  by_cases hd : bn<12
  · obtain ⟨run,hf⟩ := bmaparray_direct g env s maxrun hd
    exact ⟨s,run,hf⟩
  · obtain ⟨r,hr,x,hx,rfl⟩ := data_of_lt (by omega) h
    exact bmaparray_indirect hm hio maxrun hr hx

theorem Mappable.range (hm : s.Mappable g) (bn : ℕ) : g.InRange (s.mapped g bn) := by
  have hzero : g.InRange 0 := by
    have h := hm.direct 0 (by decide)
    exact ⟨le_rfl,lt_of_le_of_lt h.1 h.2⟩
  unfold mapped
  by_cases hd : bn<12
  · rw [if_pos hd]
    exact hm.direct bn hd
  · rw [if_neg hd]
    cases hg : getlbns g.nindir bn with
    | none => exact hzero
    | some c => exact (hm.indirect bn c.1 c.2 (by omega) hg).range

end State

variable (g : Geometry)

theorem Geometry.fsbtodb_eq {b : ℤ} (h : g.InRange b) :
    g.fsbtodb b=b*((g.blocksize/512 : ℕ) : ℤ) := by
  obtain ⟨h0,h1⟩ := h
  have hlog := g.log_le
  unfold Geometry.fsbtodb
  simp only [Geometry.blocksize] at h1 ⊢
  generalize g.logBlockSize=k at hlog h1 ⊢
  match k,hlog with
  | 0,_ =>
    exact Int.bmod_eq_of_le (by omega) (by omega)
  | 1,_ =>
    exact Int.bmod_eq_of_le (by omega) (by omega)
  | 2,_ =>
    exact Int.bmod_eq_of_le (by omega) (by omega)

theorem Geometry.sectors_pos : 0<g.blocksize/512 := by
  have hpos : 0<2^g.logBlockSize := Nat.pow_pos (by decide)
  unfold Geometry.blocksize
  omega

theorem addressable_lt : 12+g.nindir+g.nindir^2+g.nindir^3<2^31 := by
  obtain ⟨-,h⟩ := State.nindir_bounds g
  obtain ⟨h2,h3⟩ := pow_bounds h
  omega

theorem blockmap_eq {g : Geometry} (env : Env) (s : State) {s' : State} {bn size maxrun run : ℕ}
    {d : ℤ} (hbn : bn<2^31) (hsize : g.devBlockSize∣size)
    (h : s.bmaparray g env bn maxrun=.ok s' d run) :
    s.blockmap g env (bn*g.blocksize) size maxrun=
      .ok s' d (min (if d=-1 ∨ run=0 then g.fsize else run*g.blocksize+g.fsize) size) := by
  have hcut : ((bn : ℕ) : ℤ).bmod (2^32)=bn := Int.bmod_eq_of_le (by omega) (by omega)
  unfold State.blockmap
  rw [Nat.mul_mod_left,if_neg (by decide),Nat.mod_eq_zero_of_dvd hsize,if_neg (by decide),
    Nat.mul_div_cancel _ (State.blocksize_pos g)]
  have hneg : ¬(bn : ℤ)<0 := by omega
  simp only [hcut,h,hneg,if_false]
  generalize (if d=-1 ∨ run=0 then g.fsize else run*g.blocksize+g.fsize)=ret
  have hmin : (if ret < size then ret else size)=min ret size := by
    split_ifs <;> omega
  rw [hmin]

theorem blockmap_right {g : Geometry} {env : Env} {s : State} (hf : g.fsize=g.blocksize)
    (hio : ∀ n,env.io n=true) (hm : s.Mappable g) {bn size : ℕ} (maxrun : ℕ)
    (hbn : bn<12+g.nindir+g.nindir^2+g.nindir^3) (hsize : g.devBlockSize∣size) :
    Right g s bn size (s.blockmap g env (bn*g.blocksize) size maxrun) := by
  obtain ⟨s',run,hfound⟩ := State.bmaparray_found hm hio maxrun hbn
  have hmax := addressable_lt g
  have hrange := hm.range bn
  have hpos := g.sectors_pos
  have hbs := State.blocksize_pos g
  have hinc : g.seqinc=1 := by
    unfold Geometry.seqinc
    rw [hf,Nat.div_self hbs]
  rw [blockmap_eq env s (by omega) hsize hfound.result,g.fsbtodb_eq hrange]
  have hrun := hfound.run
  generalize hp : s.mapped g bn=p at hrange hrun ⊢
  by_cases hz : p=0
  · refine ⟨s',_,_,rfl,?_,?_⟩
    · simp [hz,hp]
    · simp [hz]
  have hd : p*((g.blocksize/512 : ℕ) : ℤ)≠0 := Int.mul_ne_zero hz (by omega)
  have hppos : 0<p := lt_of_le_of_ne hrange.1 (Ne.symm hz)
  have hdpos : 0<p*((g.blocksize/512 : ℕ) : ℤ) := Int.mul_pos hppos (by omega)
  rw [if_neg hd]
  refine ⟨s',_,_,rfl,?_,?_⟩
  · constructor
    · intro h
      omega
    · intro h
      exact absurd (hp.symm.trans h) hz
  intro _
  refine ⟨Nat.min_le_right _ _,fun k hk => ?_⟩
  have hkrun : k ≤ run := by
    have hk' := lt_of_lt_of_le hk (Nat.min_le_left _ _)
    rw [hf] at hk'
    have hle : (if p*((g.blocksize/512 : ℕ) : ℤ)=-1 ∨ run=0 then g.blocksize
        else run*g.blocksize+g.blocksize)≤(run+1)*g.blocksize := by
      rw [Nat.succ_mul]
      split <;> omega
    have hlt := Nat.lt_of_mul_lt_mul_right (lt_of_lt_of_le hk' hle)
    omega
  have hkth := hrun hz k hkrun
  rw [hinc] at hkth
  rw [hkth]
  constructor
  · push_cast
    omega
  · push_cast
    ring

def twoBlocks (p : ℤ) : State where
  db i := if i=0 then 10 else if i=1 then p else 0
  ib _ := 0
  size := 0
  blocks := 0
  preallocBlock := 0
  preallocCount := 0
  nextAllocBlock := 0
  nextAllocGoal := 0
  cache _ := none
  disk _ _ := 0
  freeCount := 0
  freed := []
  clock := 0

theorem Geometry.inRange_small {b : ℤ} (h0 : 0≤b) (h : b<2000) : g.InRange b := by
  have hbound : 2000≤2^31/(g.blocksize/512) := by
    have hle : 2^g.logBlockSize≤2^2 := Nat.pow_le_pow_right (by decide) g.log_le
    rw [Nat.le_div_iff_mul_le g.sectors_pos]
    unfold Geometry.blocksize
    omega
  exact ⟨h0,by omega⟩

theorem twoBlocks_mappable {p : ℤ} (h0 : 0≤p) (h1 : p≤14) : (twoBlocks p).Mappable g := by
  have hzero : g.InRange 0 := g.inRange_small le_rfl (by decide)
  constructor
  · intro i _
    simp only [twoBlocks]
    split
    · exact g.inRange_small (by decide) (by decide)
    · split
      · exact g.inRange_small h0 (by omega)
      · exact hzero
  · intro bn level path _ _
    cases path with
    | nil => exact hzero
    | cons c path => exact ⟨hzero,if_pos (rfl : (twoBlocks p).ib level=0) ▸ rfl⟩

theorem seqinc_fragments {g : Geometry} (hf : ∃ k≤20,g.fsize=1024*2^k) (hlt : g.fsize<g.blocksize) : 2≤g.seqinc ∧ g.seqinc≤4 := by
  obtain ⟨k,-,hk⟩ := hf
  have hle : 2^g.logBlockSize≤2^2 := Nat.pow_le_pow_right (by decide) g.log_le
  have hpos : 0<2^k := Nat.pow_pos (by decide)
  unfold Geometry.seqinc
  unfold Geometry.blocksize at hlt ⊢
  have hklog : k<g.logBlockSize := (Nat.pow_lt_pow_iff_right (by decide : 1<2)).mp (by omega)
  have hstep : 2^(k+1)≤2^g.logBlockSize := Nat.pow_le_pow_right (by decide) hklog
  constructor
  · rw [Nat.le_div_iff_mul_le (by omega)]
    omega
  · exact Nat.div_le_of_le_mul (by omega)

theorem blockmap_wrong {g : Geometry} (env : Env) (hf : ∃ k≤20,g.fsize=1024*2^k)
    (hdev : 0<g.devBlockSize) (hne : g.fsize≠g.blocksize) :
    ∃ p : ℤ,(g.fsize<g.blocksize → p=10+g.seqinc) ∧ (twoBlocks p).Mappable g ∧
      ¬Right g (twoBlocks p) 0 (2*g.blocksize*g.devBlockSize)
        ((twoBlocks p).blockmap g env (0*g.blocksize) (2*g.blocksize*g.devBlockSize) 1) := by
  have hu := g.sectors_pos
  have hbig : 2*g.blocksize≤2*g.blocksize*g.devBlockSize := Nat.le_mul_of_pos_right _ hdev
  -- the first block is found, with the run that the second makes
  have hfound (p : ℤ) (hm : (twoBlocks p).Mappable g) :
      (twoBlocks p).blockmap g env (0*g.blocksize) (2*g.blocksize*g.devBlockSize) 1=
        .ok (twoBlocks p) (10*((g.blocksize/512 : ℕ) : ℤ))
          (min (if seqRun g.seqinc 1 (twoBlocks p).db 11 1 0=0 then g.fsize
            else seqRun g.seqinc 1 (twoBlocks p).db 11 1 0*g.blocksize+g.fsize)
            (2*g.blocksize*g.devBlockSize)) := by
    have hd : g.fsbtodb ((twoBlocks p).db 0)=10*((g.blocksize/512 : ℕ) : ℤ) :=
      g.fsbtodb_eq (hm.direct 0 (by decide))
    have hb : (twoBlocks p).bmaparray g env (0 : ℕ) 1=.ok (twoBlocks p)
        (10*((g.blocksize/512 : ℕ) : ℤ)) (seqRun g.seqinc 1 (twoBlocks p).db 11 1 0) := by
      unfold State.bmaparray
      rw [getlbns32_direct 0 (by decide)]
      simp only [Nat.cast_zero,Int.toNat_zero,hd]
      rw [if_neg (by omega)]
    rw [blockmap_eq env _ (by decide) (Nat.dvd_mul_left _ _) hb]
    have hd1 : ¬(10*((g.blocksize/512 : ℕ) : ℤ)=-1) := by omega
    simp only [hd1,false_or]
  have hsecond (p : ℤ) : (twoBlocks p).mapped g (0+1)=p := rfl
  by_cases hlt : g.fsize<g.blocksize
  · obtain ⟨h2,h4⟩ := seqinc_fragments hf hlt
    have hm := twoBlocks_mappable g (show (0 : ℤ)≤10+g.seqinc by omega) (by omega)
    have hrun : seqRun g.seqinc 1 (twoBlocks (10+g.seqinc)).db 11 1 0=1 := by
      simp [seqRun,twoBlocks]
    refine ⟨_,fun _ => rfl,hm,?_⟩
    rw [hfound _ hm,hrun]
    rintro ⟨s',d,r,he,-,hr⟩
    cases he
    have hfpos : 0<g.fsize := by
      obtain ⟨k,-,hk⟩ := hf
      rw [hk]
      exact Nat.mul_pos (by decide) (Nat.pow_pos (by decide))
    have hk := ((hr (by omega)).2 1 (by
      rw [if_neg (by decide)]
      exact lt_min (by omega) (by omega))).2
    rw [hsecond] at hk
    have hcancel : (10+(g.seqinc : ℤ))=11 := by
      apply Int.eq_of_mul_eq_mul_right (show ((g.blocksize/512 : ℕ) : ℤ)≠0 by omega)
      rw [hk]
      ring
    omega
  · have hm := twoBlocks_mappable g (le_refl (0 : ℤ)) (by decide)
    have hrun : seqRun g.seqinc 1 (twoBlocks 0).db 11 1 0=0 := by
      unfold seqRun
      simp only [twoBlocks]
      norm_num
      omega
    refine ⟨_,fun h => absurd h hlt,hm,?_⟩
    rw [hfound _ hm,hrun]
    rintro ⟨s',d,r,he,-,hr⟩
    cases he
    exact ((hr (by omega)).2 1 (by
      rw [if_pos rfl]
      exact lt_min (by omega) (by omega))).1 (hsecond 0)

def reads : Env := ⟨fun _ => true,fun _ => none,true,true,false,0,(0,0)⟩

end Ext2fsX.Blocks
