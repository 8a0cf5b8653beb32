import Ext2fsX.Htree.Flat
import Mathlib.Data.List.Range

namespace Ext2fsX.Htree

open Framework Directory
open Function (update update_self update_of_ne)

variable {cfg : Config} {t : IndexedDir} {f : Frames} {i : ℕ} {pre post : List (ℕ × ℕ)} {x : ℕ × ℕ}

theorem limits (cfg : Config) :
    124 ≤ rootLimit cfg ∧ rootLimit cfg < nodeLimit cfg ∧ nodeLimit cfg≤4095 := by
  have h1 := cfg.blocksize_bounds
  have h2 : cfg.blocksize≤32768 := Nat.pow_le_pow_right (n := 2) (by decide) cfg.bits_le
  unfold rootLimit nodeLimit
  omega

theorem under_length_le {xs : List (ℕ × ℕ)} {n : ℕ} (hx : ∀ y∈xs,(t.node y.2).length≤n) :
    (t.under xs).length ≤ xs.length*n := by
  induction xs with
  | nil => exact Nat.zero_le _
  | cons y xs ih =>
    obtain ⟨h1,h2⟩ := List.forall_mem_cons.mp hx
    have hrec := ih h2
    unfold IndexedDir.under at hrec ⊢
    rw [List.flatMap_cons,List.length_append,keyed_length,List.length_cons,Nat.succ_mul]
    omega

section

variable (hs : Shape cfg t)

include hs

/-- Block numbers fit the 24 bits that `dx_get_block` reads. -/
theorem Shape.blocks_lt : t.blocks<16777216 := by
  have hl := limits cfg
  have hlen := hs.blocks.length_eq
  have hroom := hs.rootRoom
  have hnode := hs.nodeRoom
  rw [List.length_append,List.length_map,List.length_map,List.length_range'] at hlen
  unfold IndexedDir.leaves at hlen
  unfold IndexedDir.nodes at hlen hnode
  split at hlen
  · rw [keyed_length,List.length_nil] at hlen
    omega
  rename_i h0
  rw [if_neg h0] at hnode
  have hu := under_length_le hnode
  rw [keyed_length] at hu hlen
  have hm : t.root.length*nodeLimit cfg≤4094*4095 := Nat.mul_le_mul (by omega) (by omega)
  omega

theorem Shape.mod_blocks : t.blocks%16777216=t.blocks :=
  Nat.mod_eq_of_lt hs.blocks_lt

theorem Shape.fresh : (t.nodes.map Prod.snd++t.leaves.map Prod.snd).Nodup ∧
      ∀ b∈t.nodes.map Prod.snd++t.leaves.map Prod.snd,b<t.blocks := by
  refine ⟨hs.blocks.nodup_iff.mpr List.nodup_range',?_⟩
  intro b hb
  have := List.mem_range'_1.mp (hs.blocks.mem_iff.mp hb)
  omega

theorem Shape.grow {bs : List ℕ}
    (hp : bs.Perm (t.blocks::(t.nodes.map Prod.snd++t.leaves.map Prod.snd))) :
    bs.Perm (List.range' 1 (t.blocks+1-1)) := by
  have hfirst := hs.first
  obtain ⟨n,hn⟩ := Nat.exists_eq_succ_of_ne_zero (Nat.ne_of_gt hfirst)
  have hb := hs.blocks
  rw [hn,Nat.succ_sub_one] at hb
  have hr : List.range' 1 (n+1)=List.range' 1 n++[n+1] := by
    rw [List.range'_1_concat,Nat.add_comm 1 n]
  rw [Nat.add_sub_cancel,hn,Nat.succ_eq_add_one,hr]
  rw [hn] at hp
  exact hp.trans ((hb.cons _).trans (List.perm_append_singleton _ _).symm)

end

theorem under_congr {t' : IndexedDir} {xs : List (ℕ × ℕ)} (hx : ∀ y∈xs,t'.node y.2=t.node y.2) : t'.under xs=t.under xs := by
  exact List.flatMap_congr (fun y hy => by rw [hx y hy])

theorem Shape.node_apart (hs : Shape cfg t) (hl : t.levels=1) {k b : ℕ} {rpre rpost : List (ℕ × ℕ)}
    (hr : keyed 0 t.root=rpre++(k,b)::rpost) : ∀ y∈rpre++rpost,y.2≠b := by
  have hnd := (List.nodup_append.mp hs.fresh.1).1
  unfold IndexedDir.nodes at hnd
  rw [if_neg (by omega),hr,List.map_append,List.map_cons,List.perm_middle.nodup_iff,
    List.nodup_cons,← List.map_append] at hnd
  intro y hy he
  exact hnd.1 (List.mem_map.mpr ⟨y,hy,he⟩)

theorem Slot.entries_room (hs : Shape cfg t) (hf : Slot t f i pre x post) : t.entries f≠[] ∧
      (t.entries f).length ≤ if f.node.isSome then nodeLimit cfg else rootLimit cfg := by
  unfold IndexedDir.entries
  cases hf with
  | flat levels hn split hat =>
    rw [hn]
    exact ⟨hs.root,hs.rootRoom⟩
  | deep b k rpre rpost npre npost levels hn root htop split hat before after =>
    have hmem : (k,b)∈t.nodes := by
      unfold IndexedDir.nodes
      rw [if_neg (by omega),root]
      simp
    rw [hn]
    exact ⟨hs.nodes _ hmem,hs.nodeRoom _ hmem⟩

/-- `dx_insert_block` in a frame: the new leaf stands right behind the one of the frame. -/
theorem Slot.insert (hs : Shape cfg t) (hf : Slot t f i pre x post) (e : DxEntry) :
    let t' := t.setEntries f (insertBlock (t.entries f) f.at e)
    t'.leaves=pre++x::e.pair::post ∧ t'.nodes=t.nodes ∧ t'.root≠[] ∧
      ((t.entries f).length < (if f.node.isSome then nodeLimit cfg else rootLimit cfg) →
        t'.root.length ≤ rootLimit cfg ∧
        ∀ y∈t.nodes,t'.node y.2≠[] ∧ (t'.node y.2).length ≤ nodeLimit cfg) := by
  have hlen := insertBlock_length (t.entries f) f.at e
  have hne : insertBlock (t.entries f) f.at e≠[] := by
    intro h0
    rw [h0] at hlen
    simp at hlen
  unfold IndexedDir.entries Frames.at at *
  unfold IndexedDir.setEntries IndexedDir.leaves IndexedDir.nodes
  cases hf with
  | flat levels hn split hat =>
    simp only [hn] at hlen hne ⊢
    simp only [levels,if_true,Option.isSome_none,if_neg Bool.false_ne_true]
    refine ⟨?_,trivial,hne,?_⟩
    · rw [hat]
      exact keyed_insertBlock split e
    · intro hroom
      exact ⟨by omega,nofun⟩
  | deep b k rpre rpost npre npost levels hn root htop split hat before after =>
    have hne0 : ¬t.levels=0 := by omega
    have hapart := hs.node_apart levels root
    simp only [hn] at hlen hne ⊢
    simp only [if_neg hne0,Option.isSome_some,if_true]
    refine ⟨?_,trivial,hs.root,?_⟩
    · rw [root,before,after]
      unfold IndexedDir.under
      rw [List.flatMap_append,List.flatMap_cons]
      dsimp only
      rw [update_self,hat,keyed_insertBlock split e]
      have hsame (xs : List (ℕ × ℕ)) (hx : ∀ y∈xs,y.2≠b) (es : List DxEntry) :
          xs.flatMap (fun y => keyed y.1 (update t.node b es y.2))=
            xs.flatMap (fun y => keyed y.1 (t.node y.2)) :=
        List.flatMap_congr (fun y hy => by rw [update_of_ne (hx y hy)])
      rw [hsame rpre (fun y hy => hapart y (List.mem_append_left _ hy)),
        hsame rpost (fun y hy => hapart y (List.mem_append_right _ hy))]
      simp
    · intro hroom
      refine ⟨hs.rootRoom,?_⟩
      intro y hy
      have hold : t.node y.2≠[] ∧ (t.node y.2).length ≤ nodeLimit cfg := by
        have hm : y∈t.nodes := by
          unfold IndexedDir.nodes
          rw [if_neg hne0]
          exact hy
        exact ⟨hs.nodes y hm,hs.nodeRoom y hm⟩
      by_cases hyb : y.2=b
      · rw [hyb,update_self]
        exact ⟨hne,by omega⟩
      · rw [update_of_ne hyb]
        exact hold

/-- The same leaves in an index where the frames have a place for one more. -/
structure Widened (cfg : Config) (t t' : IndexedDir) (f' : Frames) (pre : List (ℕ × ℕ))
    (x : ℕ × ℕ) (post : List (ℕ × ℕ)) : Prop where
  shape : Shape cfg t'
  slot : ∃ i,Slot t' f' i pre x post
  room : (t'.entries f').length < if f'.node.isSome then nodeLimit cfg else rootLimit cfg
  leaf : t'.leaf=t.leaf
  version : t'.version=t.version

theorem Shape.promote (hs : Shape cfg t) (hl : t.levels=0) (hn : f.node=none)
    (hk : keyed 0 t.root=pre++x::post) (hat : f.root=pre.length) :
    ∃ t' f',splitIndex cfg t f=some (t',f') ∧ Widened cfg t t' f' pre x post := by
  have hlim := limits cfg
  have hroom := hs.rootRoom
  have hmod := hs.mod_blocks
  unfold splitIndex
  rw [hn]
  refine ⟨_,_,rfl,?_⟩
  generalize ht : ({ t with
    levels := 1
    root := [{ t.root.getD 0 default with block := t.blocks }]
    node := update t.node t.blocks t.root
    blocks := t.blocks+1 } : IndexedDir)=t'
  have hroot : keyed 0 t'.root=[(0,t.blocks)] := by
    rw [← ht]
    simp [keyed,DxEntry.getBlock,hmod]
  have hnode : t'.node t.blocks=t.root := by
    rw [← ht]
    exact update_self ..
  have hlev : t'.levels=1 := by rw [← ht]
  have hnodes : t'.nodes=[(0,t.blocks)] := by
    unfold IndexedDir.nodes
    rw [if_neg (by omega),hroot]
  have hleaves : t'.leaves=t.leaves := by
    unfold IndexedDir.leaves IndexedDir.under
    rw [if_neg (by omega),if_pos hl,hroot,List.flatMap_cons,List.flatMap_nil,List.append_nil,hnode]
  have hblocks : t'.blocks=t.blocks+1 := by rw [← ht]
  constructor
  · constructor
    · omega
    · rw [← ht]
      exact List.cons_ne_nil _ _
    · rw [hnodes]
      exact List.forall_mem_singleton.mpr (hnode ▸ hs.root)
    · rw [← ht]
      dsimp only [List.length_cons,List.length_nil]
      omega
    · rw [hnodes]
      refine List.forall_mem_singleton.mpr ?_
      rw [hnode]
      omega
    · omega
    · rw [hnodes,hleaves,hblocks]
      apply hs.grow
      have : t.nodes=[] := by
        unfold IndexedDir.nodes
        rw [if_pos hl]
      rw [this]
      exact .refl _
  · refine ⟨0,.deep t.blocks 0 [] [] pre post hlev rfl hroot rfl (hnode ▸ hk) hat rfl ?_⟩
    exact (List.append_nil _).symm
  · unfold IndexedDir.entries
    dsimp only
    rw [hnode]
    exact Nat.lt_of_le_of_lt hroom hlim.2.1
  · rw [← ht]
  · rw [← ht]

theorem under_append (t : IndexedDir) (xs ys : List (ℕ × ℕ)) :
    t.under (xs++ys)=t.under xs++t.under ys := List.flatMap_append

theorem under_cons (t : IndexedDir) (y : ℕ × ℕ) (ys : List (ℕ × ℕ)) :
    t.under (y::ys)=keyed y.1 (t.node y.2)++t.under ys := List.flatMap_cons

/-- The node `b` was split at its entry `n`, the upper half under the key `k2`. -/
structure NodeSplit (t t' : IndexedDir) (b k k2 n : ℕ) (rpre rpost : List (ℕ × ℕ)) : Prop where
  levels : t'.levels=1
  root : keyed 0 t'.root=rpre++(k,b)::(k2,t.blocks)::rpost
  lower : keyed k (t'.node b)=(keyed k (t.node b)).take n
  upper : keyed k2 (t'.node t.blocks)=(keyed k (t.node b)).drop n
  same : ∀ y∈rpre++rpost,t'.node y.2=t.node y.2

section NodeSplits

variable {t' : IndexedDir} {b k k2 n : ℕ} {rpre rpost npre npost : List (ℕ × ℕ)}

section

variable (h : NodeSplit t t' b k k2 n rpre rpost)

include h

theorem NodeSplit.under_pre : t'.under rpre=t.under rpre :=
  under_congr (fun y hy => h.same y (List.mem_append_left _ hy))

theorem NodeSplit.under_post : t'.under rpost=t.under rpost :=
  under_congr (fun y hy => h.same y (List.mem_append_right _ hy))

theorem NodeSplit.nodes : t'.nodes=rpre++(k,b)::(k2,t.blocks)::rpost := by
  have hl := h.levels
  unfold IndexedDir.nodes
  rw [if_neg (by omega),h.root]

theorem NodeSplit.leaves (hl : t.levels=1)
    (hr : keyed 0 t.root=rpre++(k,b)::rpost) : t'.leaves=t.leaves := by
  have hl' := h.levels
  unfold IndexedDir.leaves
  rw [if_neg (by omega),if_neg (by omega),h.root,hr]
  simp only [under_append,under_cons]
  rw [h.under_pre,h.under_post,h.lower,h.upper,← List.append_assoc (List.take _ _),
    List.take_append_drop]

theorem NodeSplit.slot_lower (hn : f.node=some b)
    (hk : keyed k (t.node b)=npre++x::npost) (hat : f.inner=npre.length) (hlt : f.inner<n) :
    Slot t' f rpre.length (t.under rpre++npre) x (npost++t.under rpost) := by
  obtain ⟨m,hm⟩ : ∃ m,n=npre.length+(m+1) := ⟨n-npre.length-1,by omega⟩
  have hlow := h.lower
  have hupp := h.upper
  rw [hk,hm,List.take_append,List.take_of_length_le (by omega)] at hlow
  rw [hk,hm,List.drop_append,List.drop_of_length_le (by omega)] at hupp
  rw [Nat.add_sub_cancel_left,List.take_succ_cons] at hlow
  rw [Nat.add_sub_cancel_left,List.drop_succ_cons,List.nil_append] at hupp
  refine .deep b k rpre ((k2,t.blocks)::rpost) npre (npost.take m) h.levels hn h.root rfl hlow hat
    ?_ ?_
  · rw [h.under_pre]
  · rw [under_cons,hupp,h.under_post,← List.append_assoc,List.take_append_drop]

theorem NodeSplit.slot_upper
    (hk : keyed k (t.node b)=npre++x::npost) (hat : f.inner=npre.length) (hle : n ≤ f.inner) :
    Slot t' ⟨f.root,some t.blocks,f.inner-n⟩ (rpre.length+1) (t.under rpre++npre) x
      (npost++t.under rpost) := by
  have hlow := h.lower
  have hupp := h.upper
  rw [hk,List.take_append_of_le_length (by omega)] at hlow
  rw [hk,List.drop_append_of_le_length (by omega)] at hupp
  refine .deep t.blocks k2 (rpre++[(k,b)]) rpost (npre.drop n) npost h.levels rfl ?_ ?_ hupp ?_ ?_
    ?_
  · rw [h.root,List.append_assoc]
    rfl
  · simp
  · rw [List.length_drop,hat]
  · rw [under_append,under_cons,hlow,h.under_pre]
    simp [IndexedDir.under]
  · rw [h.under_post]

end

end NodeSplits

/-- The upper half of a full node moves to a new node right behind it. -/
theorem Shape.splitNode (hs : Shape cfg t) {b k : ℕ} {rpre rpost npre npost : List (ℕ × ℕ)}
    (hl : t.levels=1) (hn : f.node=some b) (hr : keyed 0 t.root=rpre++(k,b)::rpost)
    (htop : f.root=rpre.length) (hk : keyed k (t.node b)=npre++x::npost) (hat : f.inner=npre.length)
    (hfull : (t.node b).length=nodeLimit cfg) (hroom : t.root.length≠rootLimit cfg) :
    ∃ t' f',splitIndex cfg t f=some (t',f') ∧
      Widened cfg t t' f' (t.under rpre++npre) x (npost++t.under rpost) := by
  have hlim := limits cfg
  have hmod := hs.mod_blocks
  have hrootRoom := hs.rootRoom
  have hnodesOld : t.nodes=keyed 0 t.root := if_neg (by omega)
  have hmem : (k,b)∈t.nodes := by
    rw [hnodesOld,hr]
    simp
  have hlt : ∀ y∈t.nodes,y.2≠t.blocks := by
    intro y hy
    have := hs.fresh.2 y.2 (List.mem_append_left _ (List.mem_map_of_mem hy))
    omega
  have hbn := hlt _ hmem
  have hapart := hs.node_apart hl hr
  have hother : ∀ y∈rpre++rpost,y∈t.nodes := by
    intro y hy
    rw [hnodesOld,hr]
    rcases List.mem_append.mp hy with hy | hy
    · exact List.mem_append_left _ hy
    · exact List.mem_append_right _ (List.mem_cons_of_mem _ hy)
  unfold splitIndex
  rw [hn]
  dsimp only
  rw [if_neg hroom]
  refine ⟨_,_,rfl,?_⟩
  generalize hn1 : (t.node b).length/2=n
  have hn0 : 0<n := by omega
  have hnl : n<(t.node b).length := by omega
  generalize hk2 : ((t.node b).getD n default).hash=k2
  generalize ht : ({ t with
    root := insertBlock t.root f.root ⟨k2,t.blocks⟩
    node := update (update t.node t.blocks ((t.node b).drop n)) b ((t.node b).take n)
    blocks := t.blocks+1 } : IndexedDir)=t'
  have hblocks : t'.blocks=t.blocks+1 := by rw [← ht]
  have hlow : t'.node b=(t.node b).take n := by
    rw [← ht]
    exact update_self ..
  have hupp : t'.node t.blocks=(t.node b).drop n := by
    rw [← ht]
    dsimp only
    rw [update_of_ne (Ne.symm hbn),update_self]
  have hsplit : NodeSplit t t' b k k2 n rpre rpost := by
    refine ⟨by rw [← ht]; exact hl,?_,by rw [hlow,keyed_take],by rw [hupp,← hk2,keyed_drop k hn0 hnl],
      ?_⟩
    · rw [← ht]
      rw [htop,keyed_insertBlock hr]
      simp only [DxEntry.pair,DxEntry.getBlock,hmod]
    · intro y hy
      rw [← ht]
      dsimp only
      rw [update_of_ne (hapart y hy),update_of_ne (hlt y (hother y hy))]
  have hsizes : ∀ y∈t'.nodes,t'.node y.2≠[] ∧ (t'.node y.2).length ≤ nodeLimit cfg := by
    intro y hy
    have hcase : y=(k,b) ∨ y=(k2,t.blocks) ∨ y∈rpre++rpost := by
      rw [hsplit.nodes] at hy
      simp only [List.mem_append,List.mem_cons] at hy ⊢
      tauto
    rcases hcase with rfl | rfl | hy
    · dsimp only
      rw [hlow,List.length_take]
      exact ⟨List.ne_nil_of_length_pos (by rw [List.length_take]; omega),by omega⟩
    · dsimp only
      rw [hupp,List.length_drop]
      exact ⟨List.ne_nil_of_length_pos (by rw [List.length_drop]; omega),by omega⟩
    · rw [hsplit.same y hy]
      exact ⟨hs.nodes y (hother y hy),hs.nodeRoom y (hother y hy)⟩
  have hlen : t'.root.length=t.root.length+1 := by
    rw [← ht]
    exact insertBlock_length ..
  constructor
  · constructor
    · have := hsplit.levels
      omega
    · exact List.ne_nil_of_length_pos (by omega)
    · exact fun y hy => (hsizes y hy).1
    · omega
    · exact fun y hy => (hsizes y hy).2
    · omega
    · rw [hsplit.nodes,hsplit.leaves hl hr,hblocks]
      apply hs.grow
      rw [hnodesOld,hr]
      have hp := @List.perm_middle ℕ t.blocks (rpre.map Prod.snd++[b])
        (rpost.map Prod.snd++t.leaves.map Prod.snd)
      simpa using hp
  · split
    · exact ⟨_,hsplit.slot_upper hk hat ‹_›⟩
    · exact ⟨_,hsplit.slot_lower hn hk hat (by omega)⟩
  · split
    · unfold IndexedDir.entries
      dsimp only
      rw [hupp,List.length_drop,Option.isSome_some,if_pos rfl]
      omega
    · unfold IndexedDir.entries
      rw [hn]
      dsimp only
      rw [hlow,List.length_take,Option.isSome_some,if_pos rfl]
      omega
  · rw [← ht]
  · rw [← ht]

theorem Shape.splitIndex (hs : Shape cfg t) (hf : Slot t f f.root pre x post)
    (hfull : (t.entries f).length=if f.node.isSome then nodeLimit cfg else rootLimit cfg) :
    (Htree.splitIndex cfg t f=none ∧ t.levels=1 ∧ t.root.length=rootLimit cfg) ∨
    ∃ t' f',Htree.splitIndex cfg t f=some (t',f') ∧ Widened cfg t t' f' pre x post := by
  cases hf with
  | flat levels hn split hat => exact .inr (hs.promote levels hn split hat)
  | deep b k rpre rpost npre npost levels hn root htop split hat before after =>
    by_cases hroom : t.root.length=rootLimit cfg
    · refine .inl ⟨?_,levels,hroom⟩
      unfold Htree.splitIndex
      rw [hn]
      exact if_pos hroom
    · unfold IndexedDir.entries at hfull
      rw [hn] at hfull
      rw [before,after]
      exact .inr (hs.splitNode levels hn root htop split hat hfull hroom)

end Ext2fsX.Htree
