import Ext2fsX.Framework.HashRuns
import Ext2fsX.Htree.Index

namespace Ext2fsX.Htree

open Framework Directory

def DxEntry.pair (e : DxEntry) : ℕ × ℕ := (e.hash,e.getBlock)

def keyed (k : ℕ) : List DxEntry → List (ℕ × ℕ)
  | [] => []
  | e::es => (k,e.getBlock)::es.map DxEntry.pair

section Keyed

variable {k : ℕ} {es : List DxEntry} {pre post : List (ℕ × ℕ)} {x : ℕ × ℕ}

@[simp] theorem keyed_length (k : ℕ) (es : List DxEntry) : (keyed k es).length=es.length := by
  cases es with
  | nil => rfl
  | cons e es => simp [keyed]

theorem keyed_take (k : ℕ) (es : List DxEntry) (n : ℕ) :
    keyed k (es.take n)=(keyed k es).take n := by
  cases es with
  | nil => simp [keyed]
  | cons e es =>
    cases n with
    | zero => rfl
    | succ n => simp [keyed,List.map_take]

theorem keyed_drop_succ (k : ℕ) (es : List DxEntry) (n : ℕ) :
    (keyed k es).drop (n+1)=(es.drop (n+1)).map DxEntry.pair := by
  cases es with
  | nil => simp [keyed]
  | cons e es => simp [keyed,List.map_drop]

theorem keyed_append (k : ℕ) {es : List DxEntry} (hne : es≠[]) (fs : List DxEntry) :
    keyed k (es++fs)=keyed k es++fs.map DxEntry.pair := by
  cases es with
  | nil => exact absurd rfl hne
  | cons e es => simp [keyed]

theorem keyed_drop (k : ℕ) {es : List DxEntry} {n : ℕ} (h0 : 0<n) (hn : n < es.length) :
    keyed (es.getD n default).hash (es.drop n)=(keyed k es).drop n := by
  obtain ⟨n,rfl⟩ := Nat.exists_eq_succ_of_ne_zero (Nat.ne_of_gt h0)
  rw [keyed_drop_succ,List.drop_eq_getElem_cons hn,List.getD_eq_getElem _ _ hn]
  rfl

theorem keyed_getD {i : ℕ} {y : ℕ × ℕ} (hy : (keyed k es)[i+1]?=some y) :
    (es.getD (i+1) default).pair=y := by
  cases es with
  | nil => simp [keyed] at hy
  | cons e es =>
    rw [keyed,List.getElem?_cons_succ,List.getElem?_map] at hy
    obtain ⟨e',he,rfl⟩ := Option.map_eq_some_iff.mp hy
    rw [List.getD_cons_succ,List.getD_eq_getElem?_getD,he]
    rfl

theorem keyed_getBlock {i : ℕ} {y : ℕ × ℕ} (hy : (keyed k es)[i]?=some y) :
    (es.getD i default).getBlock=y.2 := by
  cases i with
  | zero =>
    cases es with
    | nil => simp [keyed] at hy
    | cons e es =>
      obtain rfl : (k,e.getBlock)=y := by simpa [keyed] using hy
      rfl
  | succ i => exact congrArg Prod.snd (keyed_getD hy)

/-- `dx_insert_block` puts the new entry right behind `at`. -/
theorem keyed_insertBlock (hk : keyed k es=pre++x::post) (e : DxEntry) :
    keyed k (insertBlock es pre.length e)=pre++x::e.pair::post := by
  have hlen := congrArg List.length hk
  rw [keyed_length,List.length_append,List.length_cons] at hlen
  have hne : es.take (pre.length+1)≠[] := by
    intro h0
    have := congrArg List.length h0
    rw [List.length_take,List.length_nil] at this
    omega
  have ht : (pre++x::post).take (pre.length+1)=pre++[x] := by
    simp [List.take_append,List.take_of_length_le]
  have hd : (pre++x::post).drop (pre.length+1)=post := by
    simp [List.drop_append,List.drop_of_length_le]
  unfold insertBlock
  rw [keyed_append k hne,keyed_take,hk,ht,List.map_cons,← keyed_drop_succ k,hk,hd,List.append_assoc]
  rfl

theorem insertBlock_length (es : List DxEntry) (i : ℕ) (e : DxEntry) :
    (insertBlock es i e).length=es.length+1 := by
  unfold insertBlock
  rw [List.length_append,List.length_cons,List.length_take,List.length_drop]
  omega

theorem search_spec {hash : ℕ} (hne : es≠[]) (hk : k≤hash)
    (hpw : (keyed k es).Pairwise (fun a b => a.1≤b.1)) :
    ∃ pre x post,keyed k es=pre++x::post ∧ search es hash=pre.length ∧ Probed hash x post := by
  have hpos : 0 < es.length := List.length_pos_iff.mpr hne
  have hkey {i : ℕ} (h0 : 0 < i) (hi : i < es.length) :
      ((keyed k es).get ⟨i,by rw [keyed_length]; exact hi⟩).1=(es.getD i default).hash := by
    obtain ⟨i,rfl⟩ := Nat.exists_eq_succ_of_ne_zero (Nat.ne_of_gt h0)
    have hg : (keyed k es)[i+1]?=some ((keyed k es).get ⟨i+1,by rw [keyed_length]; exact hi⟩) :=
      List.getElem?_eq_getElem _
    exact (congrArg Prod.fst (keyed_getD hg)).symm
  have hmono (i j : ℕ) (h1 : 1 ≤ i) (hij : i≤j) (hj : j ≤ es.length-1) :
      (es.getD i default).hash ≤ (es.getD j default).hash := by
    rw [← hkey (by omega) (by omega),← hkey (i := j) (by omega) (by omega)]
    rcases Nat.eq_or_lt_of_le hij with rfl | hlt
    · exact Nat.le_refl _
    · exact List.pairwise_iff_getElem.mp hpw i j _ _ hlt
  obtain ⟨h1,h2,h3,h4⟩ := bisect_spec hash es.length hmono (Nat.succ_pos 0) (by omega) (by omega)
  unfold search
  generalize bisect _ hash es.length 1 (es.length-1)=p at *
  have hlt : p-1<(keyed k es).length := by
    rw [keyed_length]
    omega
  refine ⟨(keyed k es).take (p-1),(keyed k es).get ⟨p-1,hlt⟩,(keyed k es).drop (p-1+1),?_,?_,?_,?_⟩
  · rw [List.get_eq_getElem,← List.drop_eq_getElem_cons hlt,List.take_append_drop]
  · rw [List.length_take]
    omega
  · by_cases hp : p=1
    · subst hp
      cases es with
      | nil => exact absurd rfl hne
      | cons e es => exact hk
    · rw [hkey (by omega) (by omega)]
      exact h3 (p-1) (by omega) (by omega)
  · intro y hy
    obtain ⟨i,hi,rfl⟩ := List.mem_iff_getElem.mp hy
    rw [List.length_drop,keyed_length] at hi
    rw [List.getElem_drop]
    have := h4 (p-1+1+i) (by omega) (by omega)
    rw [← hkey (by omega) (by omega)] at this
    exact this

end Keyed

def IndexedDir.nodes (t : IndexedDir) : List (ℕ × ℕ) := if t.levels=0 then [] else keyed 0 t.root

def IndexedDir.under (t : IndexedDir) (xs : List (ℕ × ℕ)) : List (ℕ × ℕ) :=
  xs.flatMap (fun x => keyed x.1 (t.node x.2))

def IndexedDir.leaves (t : IndexedDir) : List (ℕ × ℕ) :=
  if t.levels=0 then keyed 0 t.root else t.under (keyed 0 t.root)

/-- The frames `f` stand for the leaf `x` between the others, below the entry `i` of the root. -/
inductive Slot (t : IndexedDir) (f : Frames) (i : ℕ) (pre : List (ℕ × ℕ)) (x : ℕ × ℕ)
    (post : List (ℕ × ℕ)) : Prop
  | flat (levels : t.levels=0) (none : f.node=none) (split : keyed 0 t.root=pre++x::post)
      (at_ : f.root=pre.length)
  | deep (b k : ℕ) (rpre rpost npre npost : List (ℕ × ℕ)) (levels : t.levels=1)
      (some : f.node=some b) (root : keyed 0 t.root=rpre++(k,b)::rpost) (top : i=rpre.length)
      (split : keyed k (t.node b)=npre++x::npost) (at_ : f.inner=npre.length)
      (before : pre=t.under rpre++npre) (after : post=npost++t.under rpost)

section Slots

variable {cfg : Config} {t : IndexedDir} {f : Frames} {i : ℕ} {pre post : List (ℕ × ℕ)}
  {x : ℕ × ℕ}

theorem Slot.leaves_eq (hs : Slot t f i pre x post) : t.leaves=pre++x::post := by
  unfold IndexedDir.leaves
  cases hs with
  | flat levels _ split _ => rw [if_pos levels,split]
  | deep b k rpre rpost npre npost levels _ root _ split _ before after =>
    rw [if_neg (by omega),root,before,after]
    unfold IndexedDir.under
    rw [List.flatMap_append,List.flatMap_cons,split]
    simp

theorem getElem?_middle {α : Type} (xs : List α) (y : α) (ys : List α) :
    (xs++y::ys)[xs.length]?=some y := by simp

theorem Slot.leafBlock (hs : Slot t f i pre x post) : t.leafBlock f=x.2 := by
  unfold IndexedDir.leafBlock IndexedDir.entries Frames.at
  cases hs with
  | flat _ hn split hat =>
    rw [hn,hat]
    exact keyed_getBlock (split ▸ getElem?_middle pre x post)
  | deep b k rpre rpost npre npost _ hn _ _ split hat _ _ =>
    rw [hn,hat]
    exact keyed_getBlock (split ▸ getElem?_middle npre x npost)

/-- The next leaf is the next one in the list, with its key. -/
theorem Slot.advance (hs : Slot t f f.root pre x post) (hne : ∀ y∈t.nodes,t.node y.2≠[]) :
    (post=[] ∧ Htree.advance t f=none) ∨
    ∃ y ys f',post=y::ys ∧ Htree.advance t f=some (f',y.1) ∧ Slot t f' f'.root (pre++[x]) y ys := by
  cases hs with
  | flat levels hn split hat =>
    have hlen := congrArg List.length split
    rw [keyed_length,List.length_append,List.length_cons] at hlen
    unfold Htree.advance
    rw [hn]
    cases post with
    | nil =>
      rw [List.length_nil] at hlen
      exact .inl ⟨rfl,if_neg (by omega)⟩
    | cons y ys =>
      rw [List.length_cons] at hlen
      rw [if_pos (by omega),hat]
      have hy : (keyed 0 t.root)[pre.length+1]?=some y := by
        rw [split]
        simp
      refine .inr ⟨y,ys,_,rfl,by rw [← keyed_getD hy]; rfl,.flat levels rfl ?_ ?_⟩
      · rw [split,List.append_assoc]
        rfl
      · simp
  | deep b k rpre rpost npre npost levels hn root htop split hat before after =>
    have hlen := congrArg List.length split
    have hrlen := congrArg List.length root
    rw [keyed_length,List.length_append,List.length_cons] at hlen hrlen
    unfold Htree.advance
    rw [hn]
    dsimp only
    cases npost with
    | cons y ys =>
      rw [List.length_cons] at hlen
      have hy : (keyed k (t.node b))[npre.length+1]?=some y := by
        rw [split]
        simp
      rw [if_pos (by omega),hat,after]
      refine .inr ⟨y,ys++t.under rpost,⟨f.root,some b,npre.length+1⟩,rfl,
        by rw [← keyed_getD hy]; rfl,
        .deep b k rpre rpost (npre++[x]) ys levels rfl root htop ?_ ?_ ?_ rfl⟩
      · rw [split,List.append_assoc]
        rfl
      · simp
      · rw [before,List.append_assoc]
    | nil =>
      rw [List.length_nil] at hlen
      rw [if_neg (by omega),after,List.nil_append]
      cases rpost with
      | nil =>
        rw [List.length_nil] at hrlen
        exact .inl ⟨rfl,if_neg (by omega)⟩
      | cons z zs =>
        -- the first leaf of the next node stands under the key of that node
        rw [List.length_cons] at hrlen
        have hz : (keyed 0 t.root)[rpre.length+1]?=some z := by
          rw [root]
          simp
        have hzn : t.node z.2≠[] := by
          apply hne
          unfold IndexedDir.nodes
          rw [if_neg (by omega),root]
          simp
        obtain ⟨e,es,hes⟩ := List.exists_cons_of_ne_nil hzn
        have hunder : t.under (z::zs)=(z.1,e.getBlock)::(es.map DxEntry.pair++t.under zs) := by
          unfold IndexedDir.under
          rw [List.flatMap_cons,hes]
          rfl
        have hpair := keyed_getD hz
        rw [hunder,if_pos (by omega),htop]
        refine .inr ⟨(z.1,e.getBlock),es.map DxEntry.pair++t.under zs,_,rfl,
          by rw [← hpair]; rfl,.deep z.2 z.1 (rpre++[(k,b)]) zs [] (es.map DxEntry.pair)
            levels ?_ ?_ ?_ ?_ rfl ?_ rfl⟩
        · rw [← hpair]
          rfl
        · rw [root,List.append_assoc]
          rfl
        · simp
        · rw [hes]
          rfl
        · rw [before]
          unfold IndexedDir.under
          simp [split]

/-- One or two levels, no index block empty or above its limit, and every block behind the first a
node or a leaf at one place of the index. -/
structure Shape (cfg : Config) (t : IndexedDir) : Prop where
  levels : t.levels≤1
  root : t.root≠[]
  nodes : ∀ y∈t.nodes,t.node y.2≠[]
  rootRoom : t.root.length ≤ rootLimit cfg
  nodeRoom : ∀ y∈t.nodes,(t.node y.2).length ≤ nodeLimit cfg
  first : 0<t.blocks
  blocks : (t.nodes.map Prod.snd++t.leaves.map Prod.snd).Perm (List.range' 1 (t.blocks-1))

theorem mem_under {y : ℕ × ℕ} {xs : List (ℕ × ℕ)} :
    y∈t.under xs ↔ ∃ z∈xs,y∈keyed z.1 (t.node z.2) := List.mem_flatMap

theorem keyed_head_mem {k : ℕ} {es : List DxEntry} (hne : es≠[]) : ∃ y∈keyed k es,y.1=k := by
  obtain ⟨e,es,rfl⟩ := List.exists_cons_of_ne_nil hne
  exact ⟨(k,e.getBlock),List.mem_cons_self,rfl⟩

theorem under_pairwise {xs : List (ℕ × ℕ)} (hne : ∀ z∈xs,t.node z.2≠[])
    (hpw : (t.under xs).Pairwise (fun a b => a.1≤b.1)) :
    (∀ z∈xs,(keyed z.1 (t.node z.2)).Pairwise (fun a b => a.1≤b.1)) ∧
      xs.Pairwise (fun a b => a.1≤b.1) := by
  obtain ⟨h1,h2⟩ := List.pairwise_flatMap.mp hpw
  refine ⟨h1,h2.imp_of_mem ?_⟩
  intro a b ha hb hab
  obtain ⟨y,hy,hya⟩ := keyed_head_mem (k := a.1) (hne a ha)
  obtain ⟨w,hw,hwb⟩ := keyed_head_mem (k := b.1) (hne b hb)
  rw [← hya,← hwb]
  exact hab y hy w hw

theorem keyed_ge {k : ℕ} {es : List DxEntry} {y : ℕ × ℕ}
    (hpw : (keyed k es).Pairwise (fun a b => a.1≤b.1)) (hy : y∈keyed k es) : k≤y.1 := by
  cases es with
  | nil => cases hy
  | cons e es =>
    rcases List.mem_cons.mp hy with rfl | hy
    · exact Nat.le_refl k
    · exact (List.pairwise_cons.mp hpw).1 y hy

/-- `dx_probe` gives the last leaf whose key is not above the hash. -/
theorem Shape.probe (hs : Shape cfg t) (hkeys : t.leaves.Pairwise (fun a b => a.1≤b.1))
    (hknown : (HashVersion.known t.version).isSome) (hash : ℕ) :
    ∃ f pre x post,Htree.probe t hash=some f ∧ Slot t f f.root pre x post ∧ Probed hash x post := by
  have hn : (HashVersion.known t.version).isNone=false := by
    rw [Option.isNone_eq_false_iff]
    exact hknown
  have hlev := hs.levels
  have hnode := hs.nodes
  unfold Htree.probe
  unfold IndexedDir.leaves at hkeys
  unfold IndexedDir.nodes at hnode
  rw [hn,if_neg Bool.false_ne_true,if_neg (by omega)]
  by_cases h0 : t.levels=0
  · rw [if_pos h0] at hkeys
    obtain ⟨pre,x,post,h1,h2,h3⟩ := search_spec hs.root (Nat.zero_le hash) hkeys
    exact ⟨_,pre,x,post,if_pos h0,.flat h0 rfl h1 h2,h3⟩
  rw [if_neg h0] at hkeys hnode
  obtain ⟨hin,hroot⟩ := under_pairwise hnode hkeys
  obtain ⟨rpre,⟨k,b⟩,rpost,h1,h2,h3⟩ := search_spec hs.root (Nat.zero_le hash) hroot
  have hmem : (k,b)∈keyed 0 t.root := by
    rw [h1]
    simp
  have hb : (t.root.getD (search t.root hash) default).getBlock=b := by
    rw [h2]
    exact keyed_getBlock (h1 ▸ getElem?_middle rpre (k,b) rpost)
  obtain ⟨npre,x,npost,g1,g2,g3⟩ := search_spec (hnode _ hmem) h3.here (hin _ hmem)
  refine ⟨⟨search t.root hash,some b,search (t.node b) hash⟩,t.under rpre++npre,x,
    npost++t.under rpost,?_,.deep b k rpre rpost npre npost (by omega) rfl h1 h2 g1 g2 rfl rfl,
    g3.here,?_⟩
  · rw [if_neg h0,hb]
  intro y hy
  rcases List.mem_append.mp hy with hy | hy
  · exact g3.after y hy
  · obtain ⟨z,hz,hyz⟩ := mem_under.mp hy
    have hzr : z∈keyed 0 t.root := by
      rw [h1]
      exact List.mem_append_right _ (List.mem_cons_of_mem _ hz)
    exact Nat.lt_of_lt_of_le (h3.after z hz) (keyed_ge (hin z hzr) hyz)

theorem Slot.nextBlock (hs : Slot t f f.root pre x post) (hne : ∀ y∈t.nodes,t.node y.2≠[])
    {hash : ℕ} (heven : hash%2=0) :
    (post.takeWhile (fun z => decide (z.1/2*2=hash))=[] ∧ Htree.nextBlock t hash f=none) ∨
    ∃ y ys f',post=y::ys ∧ y.1/2*2=hash ∧ Htree.nextBlock t hash f=some f' ∧
      Slot t f' f'.root (pre++[x]) y ys := by
  unfold Htree.nextBlock
  rcases hs.advance hne with ⟨rfl,ha⟩ | ⟨y,ys,f',rfl,ha,hs'⟩
  · rw [ha]
    exact .inl ⟨rfl,rfl⟩
  rw [ha]
  dsimp only
  by_cases hy : y.1/2*2=hash
  · rw [if_neg (by omega)]
    exact .inr ⟨y,ys,f',rfl,hy,rfl,hs'⟩
  · rw [if_pos ⟨heven,hy⟩]
    exact .inl ⟨List.takeWhile_cons_of_neg (by simpa using hy),rfl⟩

end Slots

end Ext2fsX.Htree
