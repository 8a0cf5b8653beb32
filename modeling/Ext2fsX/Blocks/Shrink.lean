import Ext2fsX.Blocks.Tree

namespace Ext2fsX.Blocks

open State

variable {g : Geometry} {env : Env}

theorem truncRoots_skip (env : Env) {k level : ℕ} {r : Released} (hk : k ≤ rootStart g.nindir level)
    (h : ∀ l<level,k ≤ rootStart g.nindir (l+1) → r.state.ib l=0) :
    truncRoots g env ((k : ℤ)-1) level r=.ok (r,decide (12<k)) := by
  induction level with
  | zero =>
    have hle : ¬12<k := Nat.not_lt.mpr hk
    simp [truncRoots,hle]
  | succ level ih =>
    have hzero := h level (Nat.lt_succ_self level) hk
    have hge := rootStart_ge g.nindir level
    unfold truncRoots lastiblock
    rw [if_pos hzero]
    by_cases hlt : k ≤ rootStart g.nindir level
    · have hneg : (k : ℤ)-1-rootStart g.nindir level<0 := by omega
      rw [if_pos hneg,if_neg (by decide)]
      apply ih hlt
      intro l hl
      exact h l (Nat.lt_succ_of_lt hl)
    · have hpos : ¬(k : ℤ)-1-rootStart g.nindir level<0 := by omega
      have h12 : 12<k := by omega
      rw [if_neg hpos,if_pos (by omega),decide_eq_true h12]

def directFrom (db : ℕ → ℤ) (k : ℕ) : ℕ → List ℤ
  | 0 => []
  | i+1 => if i<k then [] else (if db i=0 then [] else [db i])++directFrom db k i

theorem directFrom_congr {db db' : ℕ → ℤ} {k i : ℕ} (h : ∀ j < i,db' j=db j) :
    directFrom db' k i=directFrom db k i := by
  induction i with
  | zero => rfl
  | succ i ih =>
    unfold directFrom
    rw [h i (Nat.lt_succ_self i),ih (fun j hj => h j (Nat.lt_succ_of_lt hj))]

theorem directFrom_perm (s : State) (k n : ℕ) :
    (directFrom s.db k n).Perm ((((List.range n).flatMap s.directBlock).filter
      (fun b => decide (k≤b.start))).map Block.addr) := by
  induction n with
  | zero => exact .nil
  | succ n ih =>
    rw [List.range_succ,List.flatMap_append,List.filter_append,List.map_append]
    unfold directFrom
    by_cases hlt : n<k
    · have hnone : ∀ b∈(List.range n).flatMap s.directBlock,¬k≤b.start := by
        intro b hb
        obtain ⟨i,hi,hb⟩ := List.mem_flatMap.mp hb
        rw [List.mem_range] at hi
        unfold directBlock at hb
        split at hb
        · cases hb
        · obtain rfl := List.mem_singleton.mp hb
          change ¬k ≤ i
          omega
      rw [if_pos hlt,List.filter_eq_nil_iff.mpr (by simpa using hnone)]
      by_cases hz : s.db n=0
      · simp [directBlock,hz]
      · simp [directBlock,hz,Nat.not_le.mpr hlt]
    · rw [if_neg hlt]
      by_cases hz : s.db n=0
      · simpa [directBlock,hz] using ih
      · have hle : k≤n := Nat.not_lt.mp hlt
        simp only [directBlock,hz,if_false,List.flatMap_cons,List.flatMap_nil,List.append_nil,
          List.filter_cons,hle,decide_true,if_true,List.filter_nil,List.map_cons,List.map_nil]
        exact (ih.cons (s.db n)).trans (List.perm_append_singleton _ _).symm

theorem truncDirect_spec (hf : 0<g.fsize) {k i : ℕ} (r : Released) : truncDirect g ((k : ℤ)-1) i r=
      ⟨{ r.state with
          db := fun j => if k≤j ∧ j < i then 0 else r.state.db j
          freed := r.state.freed++directFrom r.state.db k i
          freeCount := r.state.freeCount+(directFrom r.state.db k i).length },
        r.count+g.btodb g.fsize*(directFrom r.state.db k i).length,r.errno⟩ := by
  induction i generalizing r with
  | zero => simp [truncDirect,directFrom]
  | succ i ih =>
    unfold truncDirect directFrom
    by_cases hlt : i<k
    · have hle : (i : ℤ)≤(k : ℤ)-1 := by omega
      have hnone (j : ℕ) : ¬(k≤j ∧ j < i+1) := by omega
      simp only [hle,hlt,hnone,if_true,if_false,List.length_nil,Nat.mul_zero,Nat.add_zero,
        List.append_nil]
    have hle : ¬(i : ℤ)≤(k : ℤ)-1 := by omega
    have hki : k ≤ i := Nat.not_lt.mp hlt
    rw [if_neg hle,if_neg hlt]
    by_cases hz : r.state.db i=0
    · have hdb : (fun j => if k≤j ∧ j < i then 0 else r.state.db j)=
          fun j => if k≤j ∧ j < i+1 then 0 else r.state.db j := by
        funext j
        by_cases hj : j=i
        · subst hj
          simp [hki,hz]
        · have hiff : (k≤j ∧ j < i) ↔ (k≤j ∧ j < i+1) := by omega
          simp only [hiff]
      rw [if_pos hz,ih,if_pos hz,List.nil_append]
      rw [hdb]
    rw [if_neg hz,ih,if_neg hz]
    have hone : g.fsize/g.fsize=1 := Nat.div_self hf
    have hcongr : directFrom (Function.update r.state.db i 0) k i=directFrom r.state.db k i := by
      apply directFrom_congr
      intro j hj
      exact Function.update_of_ne (Nat.ne_of_lt hj) _ _
    have hdb : (fun j => if k≤j ∧ j < i then 0 else Function.update r.state.db i 0 j)=
        fun j => if k≤j ∧ j < i+1 then 0 else r.state.db j := by
      funext j
      by_cases hj : j=i
      · subst hj
        simp [hki]
      · have hiff : (k≤j ∧ j < i) ↔ (k≤j ∧ j < i+1) := by omega
        simp only [hiff,Function.update_of_ne hj]
    have hlen : ([r.state.db i]++directFrom r.state.db k i).length=
        1+(directFrom r.state.db k i).length := by simp [Nat.add_comm]
    simp only [blkfree,freeBlocks,hone,hcongr,hdb,hlen,Nat.mul_add,Nat.mul_one,Nat.add_assoc]
    simp

variable {s : State}

section

variable {k : ℕ} (h : ∀ l<3,k ≤ rootStart g.nindir (l+1) → s.ib l=0)

include h

theorem root_below {l : ℕ} (hl : l<3) (hne : s.ib l≠0) : rootStart g.nindir l+g.nindir^(l+1)<k :=
  not_le.mp fun hk => hne (h l hl hk)

theorem beyond_perm : (directFrom s.db k 12).Perm (s.beyond g k) := by
  have hroots : ((List.range 3).flatMap (s.rootBlocks g)).filter
      (fun b => decide (k≤b.start))=[] := by
    rw [List.filter_eq_nil_iff]
    intro b hb
    obtain ⟨l,hl,hb⟩ := List.mem_flatMap.mp hb
    rw [List.mem_range] at hl
    unfold rootBlocks at hb
    split at hb
    · cases hb
    rename_i hne
    obtain ⟨-,h2⟩ := under_range s _ _ _ _ b hb
    have hlt := root_below h hl hne
    simp only [decide_eq_true_eq]
    omega
  unfold beyond tree
  rw [List.filter_append,hroots,List.append_nil]
  exact directFrom_perm s k 12

theorem cut_of_direct {s' : State} (hfreed : s'.freed=s.freed++directFrom s.db k 12)
    (hdb : ∀ i<12,s'.db i=if k ≤ i then 0 else s.db i) (hib : s'.ib=s.ib) (hc : s'.cache=s.cache)
    (hd : s'.disk=s.disk)
    (hb : s'.blocks=s.blocks-(g.btodb g.blocksize*(directFrom s.db k 12).length : ℕ)) :
    Cut g k s s' := by
  have hperm := beyond_perm h
  refine ⟨?_,hdb,?_,?_,?_⟩
  · rw [hfreed]
    exact hperm.append_left _
  · intro l hl
    rw [hib]
    split
    · rename_i hk
      exact h l hl (Nat.le_trans hk (rootStart_mono _ _))
    · rfl
  · intro l hl hne
    apply cutBelow_of_le hc hd
    exact (root_below h hl hne).le
  · rw [hb,hperm.length_eq]

end

variable {s' : State}

theorem alloc_ok (hw : s.preallocCount=0) (hfree : 0 < s.freeCount)
    (hres : env.root=true ∨ g.rBlocksCount ≤ s.freeCount)
    (hnew : ∀ n,∃ x,env.newBlock n=some x ∧ 0<x.block) (lbn bpref : ℤ) (size : ℕ) :
    ∃ s' b,s.alloc g env lbn bpref size=(s',some b) ∧ 0<b ∧ s'.db=s.db ∧ s'.ib=s.ib ∧
      s'.cache=s.cache ∧ s'.disk=s.disk ∧ s'.freed=s.freed ∧ s'.blocks=s.blocks+g.btodb size := by
  obtain ⟨x,hx,hpos⟩ := hnew s.clock
  have hnot : ¬((size=g.blocksize ∧ s.freeCount=0) ∨
      (env.root=false ∧ s.freeCount<g.rBlocksCount)) := by
    rintro (⟨-,h0⟩ | ⟨hroot,hlt⟩)
    · omega
    · rcases hres with hr | hr
      · rw [hr] at hroot
        cases hroot
      · omega
  have hpos' : (0 : ℤ)<x.block := by omega
  have hdiscard : s.discardPrealloc=s := if_neg (by simp [hw])
  unfold State.alloc takeBlock
  rw [if_neg hnot,if_neg (by simp [hw]),hdiscard]
  dsimp only
  rw [hx]
  cases env.regular with
  | true =>
    simp only [if_true,if_pos hpos']
    exact ⟨_,_,rfl,hpos',rfl,rfl,rfl,rfl,rfl,rfl⟩
  | false =>
    simp only [Bool.false_eq_true,if_false,if_pos hpos']
    exact ⟨_,_,rfl,hpos',rfl,rfl,rfl,rfl,rfl,rfl⟩

theorem flatMap_perm {α : Type} {f f' : ℕ → List α} {i : ℕ} {x : α} (h0 : f i=[]) (h1 : f' i=[x])
    (hne : ∀ j,j≠i → f' j=f j) {l : List ℕ} (hl : l.Nodup) (hi : i∈l) :
    (l.flatMap f').Perm (x::l.flatMap f) := by
  induction l with
  | nil => cases hi
  | cons j l ih =>
    rw [List.nodup_cons] at hl
    rw [List.flatMap_cons,List.flatMap_cons]
    by_cases hj : j=i
    · subst hj
      have hrest : l.flatMap f'=l.flatMap f := by
        apply List.flatMap_congr
        intro a ha
        exact hne a (fun he => hl.1 (he ▸ ha))
      rw [h0,h1,hrest]
      simp
    · have hmem : i∈l := (List.mem_cons.mp hi).resolve_left (fun he => hj he.symm)
      rw [hne j hj]
      exact ((ih hl.2 hmem).append_left (f j)).trans List.perm_middle

theorem tree_fill {i : ℕ} (hi : i<12) (hz : s.db i=0) {b : ℤ} (hb : 0<b)
    (hdb : s'.db=Function.update s.db i b) (hib : s'.ib=s.ib) (hc : s'.cache=s.cache)
    (hd : s'.disk=s.disk) : (s'.tree g).Perm ([⟨b,i,1⟩]++s.tree g) := by
  have hne : b≠0 := by omega
  have hdirect : ((List.range 12).flatMap s'.directBlock).Perm
      (⟨b,i,1⟩::(List.range 12).flatMap s.directBlock) := by
    apply flatMap_perm (i := i)
    · simp [directBlock,hz]
    · simp [directBlock,hdb,hne]
    · intro j hj
      unfold directBlock
      rw [hdb,Function.update_of_ne hj]
    · exact List.nodup_range
    · exact List.mem_range.mpr hi
  unfold State.tree
  rw [rootBlocks_congr hc hd hib]
  exact hdirect.append_right _

/-- Every root that reaches the new end is zero; a block cut through is direct, and can be allocated
if a hole; fragments are blocks, or no direct block is freed and the block cut through is a whole
one, cut within its first fragment; `i_blocks` counts what is freed. -/
structure Shrinkable (g : Geometry) (env : Env) (s : State) (length : ℕ) : Prop where
  roots : ∀ l<3,keptBlocks g length ≤ rootStart g.nindir (l+1) → s.ib l=0
  direct : length%g.blocksize≠0 → length/g.blocksize<12
  hole : length%g.blocksize≠0 → s.db (length/g.blocksize)=0 →
    0 < s.freeCount+s.preallocCount ∧
    (env.root=true ∨ g.rBlocksCount ≤ s.freeCount+s.preallocCount) ∧
    ∀ n,∃ x,env.newBlock n=some x ∧ 0<x.block
  frag : g.fsize=g.blocksize ∨ 0<g.fsize ∧ (∀ i<12,keptBlocks g length ≤ i → s.db i=0) ∧
    (length%g.blocksize≠0 → length%g.blocksize ≤ g.fsize ∧ (s.db (length/g.blocksize)=0 →
      (length/g.blocksize+1)*g.blocksize ≤ s.size ∨ g.fragroundup (length%g.blocksize)=g.blocksize))
  counted : (g.btodb g.blocksize*(s.beyond g (keptBlocks g length)).length : ℕ) ≤ s.blocks

theorem fragroundup_block (hf : g.fsize=g.blocksize) {size : ℕ} (h0 : 0 < size)
    (hle : size≤g.blocksize) : g.fragroundup size=g.blocksize := by
  have hb := blocksize_pos g
  unfold Geometry.fragroundup
  rw [hf]
  have hdiv : (size+g.blocksize-1)/g.blocksize=1 := by
    rw [Nat.div_eq_iff hb]
    omega
  rw [hdiv,Nat.one_mul]

theorem fragroundup_mono {m n : ℕ} (h : m ≤ n) : g.fragroundup m ≤ g.fragroundup n :=
  Nat.mul_le_mul_right _ (Nat.div_le_div_right (by omega))

variable {length : ℕ}

/-- The block cut through is allocated as a whole one, and cleared within it. -/
theorem Shrinkable.whole (h : Shrinkable g env s length) (h0 : length%g.blocksize≠0) :
    length%g.blocksize ≤ g.fsize ∧ (s.db (length/g.blocksize)=0 →
      (length/g.blocksize+1)*g.blocksize ≤ s.size ∨
        g.fragroundup (length%g.blocksize)=g.blocksize) := by
  have hmod := Nat.le_of_lt (Nat.mod_lt length (blocksize_pos g))
  rcases h.frag with hf | ⟨-,-,hf⟩
  · exact ⟨hf ▸ hmod,fun _ => .inr (fragroundup_block hf (Nat.pos_of_ne_zero h0) hmod)⟩
  · exact hf h0

theorem keptBlocks_partialBlock (h : length%g.blocksize≠0) :
    keptBlocks g length=length/g.blocksize+1 := by
  have hb := blocksize_pos g
  have hdm := Nat.div_add_mod length g.blocksize
  have hlt := Nat.mod_lt length hb
  unfold keptBlocks
  rw [Nat.div_eq_iff hb,Nat.add_mul,Nat.mul_comm (length/g.blocksize)]
  omega

/-- What `ext2_truncate` does for the block that the new end cuts through. -/
structure PartialDone (g : Geometry) (length : ℕ) (s s' : State) (new : List Block) : Prop where
  ib : s'.ib=s.ib
  cache : s'.cache=s.cache
  disk : s'.disk=s.disk
  freed : s'.freed=s.freed
  tree : (s'.tree g).Perm (new++s.tree g)
  path : ∀ b∈new,length%g.blocksize≠0 ∧ b.start≤length/g.blocksize ∧
    length/g.blocksize<b.start+b.span
  blocks : s'.blocks=s.blocks+(g.btodb g.blocksize*new.length : ℕ)

theorem PartialDone.of_same (hdb : s'.db=s.db) (hib : s'.ib=s.ib)
    (hc : s'.cache=s.cache) (hd : s'.disk=s.disk) (hf : s'.freed=s.freed)
    (hb : s'.blocks=s.blocks) : PartialDone g length s s' [] := by
  refine ⟨hib,hc,hd,hf,?_,by simp,by simpa using hb⟩
  rw [tree_congr hc hd hdb hib]
  exact .refl _

section

variable (hio : ∀ n,env.io n=true)

include hio

section

variable (hw : s.preallocCount=0) (hlt : length < s.size)
    (hwhole : s.db (length/g.blocksize)=0 → (length/g.blocksize+1)*g.blocksize ≤ s.size ∨
      g.fragroundup (length%g.blocksize)=g.blocksize) (h0 : length%g.blocksize≠0) (h12 : length/g.blocksize<12)
    (hole : s.db (length/g.blocksize)=0 → 0 < s.freeCount ∧
      (env.root=true ∨ g.rBlocksCount ≤ s.freeCount) ∧
      ∀ n,∃ x,env.newBlock n=some x ∧ 0<x.block)

include hw hlt hwhole h0 h12 hole

theorem ballocDirect_ok :
    ∃ s' new,s.ballocDirect g env (length/g.blocksize) (length%g.blocksize)=.ok (s',.ok) ∧
      PartialDone g length s s' new := by
  have hb := blocksize_pos g
  have hmod := Nat.mod_lt length hb
  have hdm := Nat.div_add_mod length g.blocksize
  unfold ballocDirect
  by_cases hz : s.db (length/g.blocksize)=0
  · rw [if_neg (not_not.mpr hz)]
    obtain ⟨hfree,hres,hnew⟩ := hole hz
    have hsize : (if s.size<(length/g.blocksize+1)*g.blocksize then
        g.fragroundup (length%g.blocksize) else g.blocksize)=g.blocksize := by
      rcases hwhole hz with hle | he
      · exact if_neg (Nat.not_lt.mpr hle)
      · rw [he,ite_self]
    obtain ⟨s',b,hal,hpos,hdb,hib,hc,hd,hfr,hbl⟩ := alloc_ok hw hfree hres hnew
      (length/g.blocksize : ℕ)
      (s.blkpref env (length/g.blocksize : ℕ) (length/g.blocksize) s.inodePtrs 0) g.blocksize
    dsimp only
    rw [hsize,hal]
    refine ⟨_,[⟨b,length/g.blocksize,1⟩],rfl,hib,hc,hd,hfr,?_,?_,by simpa using hbl⟩
    · refine tree_fill h12 hz hpos ?_ hib hc hd
      rw [← hdb]
    · intro x hx
      obtain rfl := List.mem_singleton.mp hx
      exact ⟨h0,Nat.le_refl _,Nat.lt_succ_self _⟩
  · rw [if_pos hz]
    -- the file ends in a later block, or in this one behind `length`
    have hfits : (length/g.blocksize+1)*g.blocksize ≤ s.size ∨
        g.fragroundup (length%g.blocksize)≤g.fragroundup (s.size%g.blocksize) := by
      by_cases hle : (length/g.blocksize+1)*g.blocksize ≤ s.size
      · exact .inl hle
      right
      have hdm' := Nat.div_add_mod s.size g.blocksize
      have hmod' := Nat.mod_lt s.size hb
      have hsame : s.size/g.blocksize=length/g.blocksize := by
        apply Nat.le_antisymm
        · exact Nat.lt_succ_iff.mp ((Nat.div_lt_iff_lt_mul hb).mpr (Nat.not_le.mp hle))
        · exact Nat.div_le_div_right (Nat.le_of_lt hlt)
      rw [hsame] at hdm'
      exact fragroundup_mono (by omega)
    rw [if_pos hfits,if_pos (hio _)]
    exact ⟨_,[],rfl,.of_same rfl rfl rfl rfl rfl rfl⟩

/-- `ext2_balloc` of a direct block; the guess for the next allocation is no pointer. -/
theorem balloc_ok : ∃ s' new,s.balloc g env (length/g.blocksize) (length%g.blocksize)=.ok (s',.ok) ∧
      PartialDone g length s s' new := by
  unfold State.balloc
  rw [if_pos h12]
  by_cases hseq : ((length/g.blocksize : ℕ) : ℤ)=s.nextAllocBlock+1
  · rw [if_pos hseq]
    obtain ⟨s',new,he,hd⟩ := ballocDirect_ok (s := { s with
      nextAllocBlock := s.nextAllocBlock+1, nextAllocGoal := s.nextAllocGoal+1 })
      hio hw hlt hwhole h0 h12 hole
    exact ⟨s',new,he,hd.ib,hd.cache,hd.disk,hd.freed,hd.tree,hd.path,hd.blocks⟩
  · rw [if_neg hseq]
    exact ballocDirect_ok hio hw hlt hwhole h0 h12 hole

end

theorem truncPartial_ok (hw : s.preallocCount=0) (hlt : length < s.size)
    (hwhole : length%g.blocksize≠0 → length%g.blocksize ≤ g.fsize ∧ (s.db (length/g.blocksize)=0 →
      (length/g.blocksize+1)*g.blocksize ≤ s.size ∨ g.fragroundup (length%g.blocksize)=g.blocksize))
    (h12 : length%g.blocksize≠0 → length/g.blocksize<12)
    (hole : length%g.blocksize≠0 → s.db (length/g.blocksize)=0 → 0 < s.freeCount ∧
      (env.root=true ∨ g.rBlocksCount ≤ s.freeCount) ∧
      ∀ n,∃ x,env.newBlock n=some x ∧ 0<x.block) :
    ∃ s' new,s.truncPartial g env length=.ok (s',.ok) ∧ PartialDone g length s s' new := by
  unfold truncPartial
  by_cases h0 : length%g.blocksize=0
  · rw [if_pos h0]
    exact ⟨s,[],rfl,.of_same rfl rfl rfl rfl rfl rfl⟩
  rw [if_neg h0]
  obtain ⟨s',new,he,hd⟩ := balloc_ok hio hw hlt (hwhole h0).2 h0 (h12 h0) (hole h0)
  rw [he]
  simp only [ne_eq,not_true_eq_false,if_false]
  rw [if_neg (Nat.not_lt.mpr (hwhole h0).1)]
  exact ⟨s'.tick,new,rfl,hd.ib,hd.cache,hd.disk,hd.freed,hd.tree,hd.path,hd.blocks⟩

end

theorem PartialDone.beyond {new : List Block} (h : PartialDone g length s s' new) :
    (s'.beyond g (keptBlocks g length)).Perm (s.beyond g (keptBlocks g length)) := by
  have hnone : new.filter (fun b => decide (keptBlocks g length≤b.start))=[] := by
    rw [List.filter_eq_nil_iff]
    intro b hb
    obtain ⟨h0,hle,-⟩ := h.path b hb
    rw [keptBlocks_partialBlock h0]
    simp only [decide_eq_true_eq]
    omega
  have hp := (h.tree.filter (fun b => decide (keptBlocks g length≤b.start))).map Block.addr
  rw [List.filter_append,hnone,List.nil_append] at hp
  exact hp

theorem keptBlocks_le (h : length≤g.maxfilesize) : keptBlocks g length ≤ rootStart g.nindir 3 := by
  have hb := blocksize_pos g
  have hroot : rootStart g.nindir 3=12+g.nindir+g.nindir^2+g.nindir^3 := by
    simp [rootStart]
  unfold keptBlocks
  rw [hroot,Nat.div_le_iff_le_mul_add_pred hb,Nat.mul_comm]
  unfold Geometry.maxfilesize at h
  omega

theorem directFrom_nil {db : ℕ → ℤ} {k n : ℕ} (h : ∀ i < n,k ≤ i → db i=0) :
    directFrom db k n=[] := by
  induction n with
  | zero => rfl
  | succ n ih =>
    unfold directFrom
    split
    · rfl
    · rename_i hk
      rw [if_pos (h n (Nat.lt_succ_self n) (Nat.not_lt.mp hk)),List.nil_append]
      exact ih (fun i hi => h i (Nat.lt_succ_of_lt hi))

theorem shrink_ok (hio : ∀ n,env.io n=true) (hw : s.preallocCount=0) (hlt : length < s.size)
    (hmax : length≤g.maxfilesize) (hs : Shrinkable g env s length) :
    ∃ s1 s' new,s.shrink g env length=.ok (s',.ok) ∧ s'.size=length ∧
      PartialDone g length s s1 new ∧ Cut g (keptBlocks g length) s1 s' := by
  have hfpos : 0<g.fsize := by
    rcases hs.frag with hf | ⟨hf,-⟩
    · exact hf ▸ blocksize_pos g
    · exact hf
  have hhole := hs.hole
  rw [hw,Nat.add_zero] at hhole
  obtain ⟨s1,new,hp,hdone⟩ := truncPartial_ok (s := s.tick) hio hw hlt
    (fun h0 => hs.whole h0) hs.direct hhole
  have hdone' : PartialDone g length s s1 new :=
    ⟨hdone.ib,hdone.cache,hdone.disk,hdone.freed,hdone.tree,hdone.path,hdone.blocks⟩
  have hroots : ∀ l<3,keptBlocks g length ≤ rootStart g.nindir (l+1) → s1.ib l=0 := by
    intro l hl hk
    rw [hdone.ib]
    exact hs.roots l hl hk
  have hperm := beyond_perm hroots
  have hlen : (directFrom s1.db (keptBlocks g length) 12).length=
      (s.beyond g (keptBlocks g length)).length := hperm.length_eq.trans hdone'.beyond.length_eq
  have hblocks : ¬s1.blocks-(g.btodb g.blocksize*
      (directFrom s1.db (keptBlocks g length) 12).length : ℕ)<0 := by
    have h1 := hs.counted
    rw [hlen,hdone'.blocks]
    omega
  have hskip := truncRoots_skip env (r := ⟨s1.tick.tick,0,.ok⟩) (keptBlocks_le hmax) hroots
  unfold State.shrink
  rw [hp]
  simp only [ne_eq,not_true_eq_false,if_false,hio,if_true]
  have hkept : (length+g.blocksize-1)/g.blocksize=keptBlocks g length := rfl
  rw [hkept,hskip]
  by_cases h12 : 12<keptBlocks g length
  · have hnil : directFrom s1.db (keptBlocks g length) 12=[] :=
      directFrom_nil (fun i hi hk => by omega)
    rw [hnil] at hblocks
    rw [decide_eq_true h12]
    refine ⟨s1,_,new,rfl,rfl,hdone',cut_of_direct hroots ?_ ?_ rfl rfl rfl ?_⟩
    · rw [hnil,List.append_nil]
      rfl
    · intro i hi
      rw [if_neg (by omega)]
      rfl
    · rw [hnil]
      exact if_neg hblocks
  · rw [decide_eq_false h12]
    dsimp only
    rw [truncDirect_spec hfpos]
    rw [if_neg (by omega)]
    refine ⟨s1,_,new,rfl,rfl,hdone',cut_of_direct hroots rfl ?_ rfl rfl rfl ?_⟩
    · intro i hi
      simp [State.truncDone,State.tick,hi]
    · rcases hs.frag with hf | ⟨-,hzero,-⟩
      · rw [hf]
        simp only [Nat.zero_add]
        exact if_neg hblocks
      · have hnil : directFrom s1.db (keptBlocks g length) 12=[] := by
          rw [← List.length_eq_zero_iff,hlen,← (beyond_perm hs.roots).length_eq,directFrom_nil hzero]
          rfl
        simp only [State.tick,hnil,List.length_nil,Nat.mul_zero,Nat.add_zero] at hblocks ⊢
        exact if_neg hblocks

theorem discardPrealloc_eq (s : State) : s.discardPrealloc={ s with
      preallocCount := 0
      freed := s.freed++s.window
      freeCount := s.freeCount+s.preallocCount } := by
  unfold discardPrealloc
  split
  · rfl
  rename_i h
  have h0 : s.preallocCount=0 := not_not.mp h
  have hw : s.window=[] := by simp [window,h0]
  rw [hw,h0,List.append_nil,Nat.add_zero]
  cases s
  cases h0
  rfl

theorem Shrinkable.discard (h : Shrinkable g env s length) :
    Shrinkable g env s.discardPrealloc length := by
  have heq := discardPrealloc_eq s
  have htree : s.discardPrealloc.beyond g (keptBlocks g length)=
      s.beyond g (keptBlocks g length) := by
    unfold beyond
    rw [tree_congr (g := g) (s := s)] <;> rw [heq]
  refine ⟨?_,h.direct,?_,?_,?_⟩
  · rw [heq]
    exact h.roots
  · rw [heq]
    exact h.hole
  · rw [heq]
    exact h.frag
  · rw [htree,heq]
    exact h.counted

section Example

def quiet : Env := ⟨fun _ => true,fun _ => none,true,true,false,0,(0,0)⟩

def directFile : State :=
  ⟨fun i => if i=0 then 100 else if i=1 then 101 else 0,fun _ => 0,2048,4,200,2,0,0,
    fun _ => none,fun _ _ => 0,50,[],0⟩

end Example

def indirectFile : State :=
  ⟨fun _ => 0,fun i => if i=0 then 1000 else 0,13312,4,0,0,0,0,
    fun l => if l=-12 then some ⟨2000,fun i => if i=0 then 2000 else 0⟩ else none,
    fun _ _ => 0,50,[],0⟩

end Ext2fsX.Blocks
