import Ext2fsX.Htree.Contents

namespace Ext2fsX.Htree

open Framework Directory
open Function (update update_self update_of_ne)

variable {cfg : Config} {seed : HashBuf} {len : ℕ} {t : IndexedDir}

theorem Leaf.unique {m : Bytes} {rs qs : List Record} (h1 : Leaf cfg m rs) (h2 : Leaf cfg m qs) :
    rs=qs := by
  rw [← (leaf_iff_layout.mp h1).records,← (leaf_iff_layout.mp h2).records]

variable {pre post : List (ℕ × ℕ)} {x : ℕ × ℕ} {h : Hashing}

theorem Sound.range (hs : Sound cfg h len t) (hl : t.leaves=pre++x::post) {e : List UInt8 × ℕ}
    (he : e∈blockEntries cfg (t.leaf x.2)) :
    x.1/2*2 ≤ h.hash e.1 ∧ ∀ y∈post.head?,h.hash e.1<y.1 := by
  have hr := hs.ranged
  rw [hl] at hr
  have ht := hr.of_append
  exact ⟨ht.1 _ ⟨e,he,rfl⟩,fun y hy => (ht.2.1 y hy).2 _ ⟨e,he,rfl⟩⟩

theorem filter_ne_of_perm {es rest : List (List UInt8 × ℕ)} {e : List UInt8 × ℕ}
    (hp : es.Perm (e::rest)) (hnd : (es.map Prod.fst).Nodup) :
    (es.filter (fun a => decide (a.1≠e.1))).Perm rest := by
  have hn : ((e::rest).map Prod.fst).Nodup := (hp.map Prod.fst).nodup_iff.mp hnd
  rw [List.map_cons,List.nodup_cons] at hn
  have hf : (e::rest).filter (fun a => decide (a.1≠e.1))=rest := by
    rw [List.filter_cons_of_neg (by simp)]
    apply List.filter_eq_self.mpr
    intro a ha
    apply decide_eq_true
    intro he
    exact hn.1 (he ▸ List.mem_map_of_mem ha)
  rw [← hf]
  exact hp.filter _

theorem Sound.delete (hs : Sound cfg (hashing seed t.version) len t)
    (hknown : (HashVersion.known t.version).isSome) (hnd : ((liveEntries cfg t).map Prod.fst).Nodup)
    (name : List UInt8) :
    let t' := dxDeleteEntry cfg seed t name
    Sound cfg (hashing seed t.version) len t' ∧ t'.version=t.version ∧
      ((liveEntries cfg t).filter (fun e => decide (e.1≠name))).Perm (liveEntries cfg t') := by
  unfold dxDeleteEntry
  rcases (hs.searchable hknown).find name with ⟨y,hy,de,h1,rs,pre,r,post,hl,hf,rfl⟩ | ⟨hno,h1⟩
  · obtain ⟨lp,lq,hleaves⟩ := List.append_of_mem hy
    obtain ⟨rs',hl',hu⟩ := hs.leaf y hy
    obtain rfl := hl'.unique hl
    obtain ⟨rfl,hit,-⟩ := hf
    obtain ⟨hlive,rfl⟩ := hit_iff.mp hit
    obtain ⟨m',hd,hl''⟩ := hl.delete
    rw [h1]
    dsimp only
    rw [hd]
    have hsub : ∀ e∈entriesOf (removed pre r post),e∈blockEntries cfg (t.leaf y.2) := by
      intro e he
      rw [hl.blockEntries,entriesOf_append,entriesOf_cons]
      rw [entriesOf_removed] at he
      rcases List.mem_append.mp he with he | he
      · exact List.mem_append_left _ he
      · exact List.mem_append_right _ (List.mem_append_right _ he)
    obtain ⟨g1,g2⟩ := hs.setLeaf hleaves hl'' (uniform_removed hu)
      (fun e he => hs.range hleaves (hsub e he))
    refine ⟨g1,rfl,?_⟩
    have hold := liveEntries_perm cfg hleaves
    rw [hl.blockEntries,entriesOf_append,entriesOf_cons,if_pos hlive] at hold
    rw [entriesOf_removed] at g2
    have hmid : (liveEntries cfg t).Perm ((r.name,r.inode)::
        (entriesOf pre++entriesOf post++content cfg t.leaf (lp++lq))) := by
      refine hold.trans ?_
      rw [List.append_assoc,List.append_assoc,List.singleton_append,List.append_assoc]
      exact List.perm_middle
    exact (filter_ne_of_perm hmid hnd).trans g2.symm
  · rw [h1]
    refine ⟨hs,rfl,?_⟩
    have hall : (liveEntries cfg t).filter (fun e => decide (e.1≠name))=liveEntries cfg t := by
      apply List.filter_eq_self.mpr
      intro e he
      apply decide_eq_true
      rintro rfl
      exact hno (List.mem_map_of_mem he)
    rw [hall]

theorem Slot.grow {f : Frames} {i : ℕ} (hsh : Shape cfg t) (hf : Slot t f i pre x post)
    (hroom : (t.entries f).length < if f.node.isSome then nodeLimit cfg else rootLimit cfg) (k : ℕ)
    (leaf : ℕ → Bytes) :
    let t' := { t.setEntries f (insertBlock (t.entries f) f.at ⟨k,t.blocks⟩) with
      leaf := leaf
      blocks := t.blocks+1 }
    Shape cfg t' ∧ t'.leaves=pre++x::(k,t.blocks)::post ∧ t'.version=t.version := by
  obtain ⟨g1,g2,g3,g4⟩ := hf.insert hsh ⟨k,t.blocks⟩
  obtain ⟨g4,g5⟩ := g4 hroom
  have hpair : DxEntry.pair ⟨k,t.blocks⟩=(k,t.blocks) := congrArg (Prod.mk k) hsh.mod_blocks
  rw [hpair] at g1
  have hfix : (t.setEntries f (insertBlock (t.entries f) f.at ⟨k,t.blocks⟩)).levels=t.levels ∧
      (t.setEntries f (insertBlock (t.entries f) f.at ⟨k,t.blocks⟩)).version=t.version := by
    unfold IndexedDir.setEntries
    split <;> exact ⟨rfl,rfl⟩
  generalize t.setEntries f (insertBlock (t.entries f) f.at ⟨k,t.blocks⟩)=s at *
  have hl : ({ s with leaf := leaf, blocks := t.blocks+1 } : IndexedDir).leaves=s.leaves := rfl
  have hn : ({ s with leaf := leaf, blocks := t.blocks+1 } : IndexedDir).nodes=s.nodes := rfl
  refine ⟨⟨?_,g3,?_,g4,?_,Nat.succ_pos _,?_⟩,hl.trans g1,hfix.2⟩
  · exact hfix.1 ▸ hsh.levels
  · intro y hy
    rw [hn,g2] at hy
    exact (g5 y hy).1
  · intro y hy
    rw [hn,g2] at hy
    exact (g5 y hy).2
  · rw [hl,hn,g1,g2]
    apply hsh.grow
    rw [hf.leaves_eq]
    have hp := @List.perm_middle ℕ t.blocks (t.nodes.map Prod.snd++(pre.map Prod.snd++[x.2]))
      (post.map Prod.snd)
    simpa using hp

theorem content_middle (cfg : Config) (leaf : ℕ → Bytes) (pre xs post : List (ℕ × ℕ)) :
    (content cfg leaf (pre++(xs++post))).Perm (content cfg leaf (xs++(pre++post))) := by
  rw [content_append,content_append,content_append,content_append,← List.append_assoc,
    ← List.append_assoc]
  exact List.perm_append_comm.append_right _

variable {d : Dentry}

variable {rs lo up : List Record}

theorem Parted.content {s : SplitAdded} {b : ℕ} {rest : List (ℕ × ℕ)}
    {leaf leaf' : ℕ → Bytes} (hp : Parted cfg h d.reclen rs d s lo up) (hl : Leaf cfg (leaf x.2) rs)
    (hx : leaf' x.2=s.lower) (hb : leaf' b=s.upper) (hsame : ∀ y∈rest,leaf' y.2=leaf y.2) (k : ℕ) :
    (content cfg leaf' (x::(k,b)::rest)).Perm
      ((d.name.bytes,d.ino)::content cfg leaf (x::rest)) := by
  rw [content_cons,content_cons,content_cons,hx,hb,content_congr hsame,hp.leafLow.blockEntries,
    hp.leafUpp.blockEntries,hl.blockEntries,← List.append_assoc]
  exact hp.entries.append_right _

theorem Parted.ranged {s : SplitAdded} {b : ℕ} {leaf leaf' : ℕ → Bytes}
    (hp : Parted cfg h d.reclen rs d s lo up) (hl : Leaf cfg (leaf x.2) rs) (hx : leaf' x.2=s.lower)
    (hb : leaf' b=s.upper) (hsame : ∀ y∈pre++post,leaf' y.2=leaf y.2)
    (hr : Ranged (Hashes cfg h leaf) (pre++x::post))
    (hprobe : Probed (h.hash d.name.bytes) x post) :
    Ranged (Hashes cfg h leaf') (pre++x::(s.key,b)::post) := by
  have htail := hr.of_append
  have hnext {y : ℕ × ℕ} (hy : y∈post.head?) : y∈post := List.mem_of_mem_head? hy
  -- the entries of both halves are the old ones and the new one
  have hold : ∀ e∈entriesOf lo++entriesOf up,
      x.1/2*2 ≤ h.hash e.1 ∧ ∀ y∈post.head?,h.hash e.1<y.1 := by
    intro e he
    rcases List.mem_cons.mp (hp.entries.mem_iff.mp he) with rfl | he
    · have hh := hprobe.here
      exact ⟨by dsimp only; omega,fun y hy => hprobe.after y (hnext hy)⟩
    · have hm : Hashes cfg h leaf x.2 (h.hash e.1) := ⟨e,by rwa [hl.blockEntries],rfl⟩
      exact ⟨htail.1 _ hm,fun y hy => (htail.2.1 y hy).2 _ hm⟩
  have hof {e : List UInt8 × ℕ} (he : e∈entriesOf rs) : Hashes cfg h leaf x.2 (h.hash e.1) :=
    ⟨e,by rwa [hl.blockEntries],rfl⟩
  apply hr.split
  · rintro y hy v ⟨e,he,hv⟩
    rw [hsame y hy] at he
    exact ⟨e,he,hv⟩
  · rintro v ⟨e,he,rfl⟩
    rw [hx,hp.leafLow.blockEntries] at he
    exact ⟨(hold e (List.mem_append_left _ he)).1,hp.below e he⟩
  · rintro v ⟨e,he,rfl⟩
    rw [hb,hp.leafUpp.blockEntries] at he
    exact ⟨hp.above e he,(hold e (List.mem_append_right _ he)).2⟩
  · obtain ⟨e,he,hlt⟩ := hp.first
    have := htail.1 _ (hof he)
    omega
  · intro y hy
    obtain ⟨e,he,heq⟩ := hp.median
    have := (htail.2.1 y hy).2 _ (hof he)
    omega

variable {rs : List Record}

/-- `do_split` and `add_dirent_to_buf` on a full leaf. -/
theorem splitLeaf_sound {f : Frames} {i : ℕ} (hsh : Shape cfg t)
    (hr : Ranged (Hashes cfg h t.leaf) t.leaves) (hf : Slot t f i pre x post)
    (hother : ∀ y∈pre++post,∃ qs,Leaf cfg (t.leaf y.2) qs ∧ Uniform d.reclen qs)
    (hroom : (t.entries f).length < if f.node.isSome then nodeLimit cfg else rootLimit cfg)
    (hl : Leaf cfg (t.leaf x.2) rs) (hlen : ∀ r∈rs,r.live=true → dirRecLen r.name.length=d.reclen)
    (h2 : 2 ≤ (rs.filter Record.live).length) (hd : d.Valid cfg)
    (hp : Probed (h.hash d.name.bytes) x post) (fresh : Bytes) :
    let t' := splitLeaf cfg h t f d fresh
    Sound cfg h d.reclen t' ∧ t'.version=t.version ∧
      (liveEntries cfg t').Perm ((d.name.bytes,d.ino)::liveEntries cfg t) := by
  have hleaves := hf.leaves_eq
  obtain ⟨lo,up,hpart⟩ := hl.splitAdd (h := h) fresh hd hlen h2
  obtain ⟨hapart,hnew⟩ := hsh.leaf_apart hleaves
  rw [hleaves] at hr hnew
  have hxn := hnew x (by simp)
  have hon : ∀ y∈pre++post,y.2≠t.blocks := by
    intro y hy
    apply hnew
    exact List.perm_middle.mem_iff.mpr (List.mem_cons_of_mem x hy)
  unfold splitLeaf
  dsimp only
  rw [hf.leafBlock]
  generalize splitAdd cfg h (t.leaf x.2) fresh d=s at *
  obtain ⟨hsh',hleaves',hver⟩ := hf.grow hsh hroom s.key
    (update (update t.leaf x.2 s.lower) t.blocks s.upper)
  have hx : update (update t.leaf x.2 s.lower) t.blocks s.upper x.2=s.lower := by
    rw [update_of_ne hxn,update_self]
  have hb : update (update t.leaf x.2 s.lower) t.blocks s.upper t.blocks=s.upper := update_self ..
  have hsame : ∀ y∈pre++post,
      update (update t.leaf x.2 s.lower) t.blocks s.upper y.2=t.leaf y.2 := by
    intro y hy
    rw [update_of_ne (hon y hy),update_of_ne (hapart y hy)]
  generalize update (update t.leaf x.2 s.lower) t.blocks s.upper=leaf at *
  generalize ht : ({ t.setEntries f (insertBlock (t.entries f) f.at ⟨s.key,t.blocks⟩) with
    leaf := leaf
    blocks := t.blocks+1 } : IndexedDir)=t' at *
  have hleaf : t'.leaf=leaf := by rw [← ht]
  refine ⟨⟨hsh',?_,?_⟩,by rw [← ht] at hver; exact hver,?_⟩
  · intro y hy
    rw [hleaves'] at hy
    have hcase : y=x ∨ y=(s.key,t.blocks) ∨ y∈pre++post := by
      simp only [List.mem_append,List.mem_cons] at hy ⊢
      tauto
    rw [hleaf]
    rcases hcase with rfl | rfl | hy
    · rw [hx]
      exact ⟨lo,hpart.leafLow,hpart.uniformLow⟩
    · dsimp only
      rw [hb]
      exact ⟨up,hpart.leafUpp,hpart.uniformUpp⟩
    · rw [hsame y hy]
      exact hother y hy
  · rw [hleaves',hleaf]
    exact hpart.ranged hl hx hb hsame hr hp
  · unfold liveEntries
    rw [hleaves',hleaves,hleaf]
    have hc := hpart.content hl hx hb hsame s.key
    have hfront := content_middle cfg leaf pre [x,(s.key,t.blocks)] post
    have hback := content_middle cfg t.leaf pre [x] post
    exact hfront.trans (hc.trans (hback.symm.cons _))

theorem Leaf.two_live {m : Bytes} (hl : Leaf cfg m rs) (hu : Uniform len rs) (hlen : len≤266)
    (hfull : ∀ r∈rs,room r < len) : 2 ≤ (rs.filter Record.live).length := by
  have hbs := cfg.blocksize_bounds
  have htot := hl.total_eq
  have hall : rs.filter Record.live=rs := by
    apply List.filter_eq_self.mpr
    intro r hr
    by_contra hd
    have h0 : r.inode=0 := by simpa [Record.live] using hd
    have h1 := hfull r hr
    have h2 := (hu r hr).1
    unfold room at h1
    rw [if_neg (by omega)] at h1
    omega
  rw [hall]
  have hshort : ∀ r∈rs,r.recLen<532 := by
    intro r hr
    have hlive : r.live=true := List.filter_eq_self.mp hall r hr
    have h0 : r.inode≠0 := by simpa [Record.live] using hlive
    have h1 := hfull r hr
    have h2 := (hu r hr).2 hlive
    unfold room at h1
    rw [if_pos h0] at h1
    omega
  rcases rs with _ | ⟨r,_ | ⟨q,rest⟩⟩
  · rw [total_nil] at htot
    omega
  · have := hshort r List.mem_cons_self
    rw [total_cons,total_nil] at htot
    omega
  · exact Nat.le_add_left 2 _

theorem not_mem_of_leaf {y : ℕ × ℕ} {name : List UInt8} (hy : y∈t.leaves)
    (habs : name∉(liveEntries cfg t).map Prod.fst) :
    name∉(blockEntries cfg (t.leaf y.2)).map Prod.fst := by
  intro hm
  obtain ⟨e,he,rfl⟩ := List.mem_map.mp hm
  exact habs (List.mem_map_of_mem (List.mem_flatMap.mpr ⟨y,hy,he⟩))

theorem Sound.addHere (hs : Sound cfg h d.reclen t) (hleaves : t.leaves=pre++x::post)
    (hp : Probed (h.hash d.name.bytes) x post) (hd : d.Valid cfg) {rpre rpost : List Record}
    {r : Record} (hl : Leaf cfg (t.leaf x.2) (rpre++r::rpost))
    (hu : Uniform d.reclen (rpre++r::rpost)) (hroom : d.reclen ≤ room r) :
    let m := t.leaf x.2
    let t' := { t with
      leaf := update t.leaf x.2 (writeAll m (addWrites m (total Record.recLen rpre) d)) }
    Sound cfg h d.reclen t' ∧
      (liveEntries cfg t').Perm ((d.name.bytes,d.ino)::liveEntries cfg t) := by
  have hent : (entriesOf (rpre++inserted r d++rpost)).Perm
      ((d.name.bytes,d.ino)::entriesOf (rpre++r::rpost)) := by
    have hc : entriesOf (r::rpost)=entriesOf [r]++entriesOf rpost := entriesOf_append [r] rpost
    rw [entriesOf_append,entriesOf_append,entriesOf_inserted r hd,entriesOf_append,hc,
      ← List.append_assoc (entriesOf rpre),← List.append_assoc (entriesOf rpre)]
    rw [List.append_assoc (entriesOf rpre++entriesOf [r])]
    exact List.perm_middle
  obtain ⟨hpre,hrest⟩ := uniform_append.mp hu
  obtain ⟨hr,hpost⟩ := uniform_cons.mp hrest
  have hu' : Uniform d.reclen (rpre++inserted r d++rpost) := by
    refine uniform_append.mpr ⟨uniform_append.mpr ⟨hpre,?_⟩,hpost⟩
    exact uniform_inserted (uniform_cons.mpr ⟨hr,nofun⟩) hroom
  obtain ⟨g1,g2⟩ := hs.setLeaf hleaves (hl.add hd hroom) hu' (by
    intro e he
    rcases List.mem_cons.mp (hent.mem_iff.mp he) with rfl | he
    · have hh := hp.here
      exact ⟨by dsimp only; omega,fun y hy => hp.after y (List.mem_of_mem_head? hy)⟩
    · exact hs.range hleaves (by rwa [hl.blockEntries]))
  refine ⟨g1,g2.trans ?_⟩
  have hold := liveEntries_perm cfg hleaves
  rw [hl.blockEntries] at hold
  exact (hent.append_right _).trans (hold.symm.cons _)

theorem Widened.splitLeaf {t' : IndexedDir} {f' : Frames} (hw : Widened cfg t t' f' pre x post)
    (hs : Sound cfg h d.reclen t) (hleaves : t.leaves=pre++x::post) (hl : Leaf cfg (t.leaf x.2) rs)
    (hu : Uniform d.reclen rs) (h2 : 2 ≤ (rs.filter Record.live).length) (hd : d.Valid cfg)
    (hp : Probed (h.hash d.name.bytes) x post) (fresh : Bytes) :
    let t' := Htree.splitLeaf cfg h t' f' d fresh
    Sound cfg h d.reclen t' ∧ t'.version=t.version ∧
      (liveEntries cfg t').Perm ((d.name.bytes,d.ino)::liveEntries cfg t) := by
  obtain ⟨i,hslot⟩ := hw.slot
  have hsame : t'.leaves=t.leaves := hslot.leaves_eq.trans hleaves.symm
  have hr : Ranged (Hashes cfg h t'.leaf) t'.leaves := by
    rw [hw.leaf,hsame]
    exact hs.ranged
  have hother : ∀ y∈pre++post,∃ qs,Leaf cfg (t'.leaf y.2) qs ∧ Uniform d.reclen qs := by
    intro y hy
    rw [hw.leaf]
    apply hs.leaf
    rw [hleaves]
    exact List.perm_middle.mem_iff.mpr (List.mem_cons_of_mem x hy)
  obtain ⟨g1,g2,g3⟩ := splitLeaf_sound hw.shape hr hslot hother hw.room (by rwa [hw.leaf])
    (fun r hr => (hu r hr).2) h2 hd hp fresh
  refine ⟨g1,g2.trans hw.version,?_⟩
  have hold : liveEntries cfg t'=liveEntries cfg t := by
    unfold liveEntries
    rw [hsame,hw.leaf]
  rwa [hold] at g3

theorem Sound.add (hs : Sound cfg (hashing seed t.version) d.reclen t)
    (hknown : (HashVersion.known t.version).isSome) (hd : d.Valid cfg)
    (habs : d.name.bytes∉(liveEntries cfg t).map Prod.fst) (fresh : Bytes) :
    (∃ t',dxAddEntry cfg seed t d fresh=.ok t' ∧
      Sound cfg (hashing seed t.version) d.reclen t' ∧ t'.version=t.version ∧
      (liveEntries cfg t').Perm ((d.name.bytes,d.ino)::liveEntries cfg t)) ∨
    (dxAddEntry cfg seed t d fresh=.error .enospc ∧ t.levels=1 ∧ t.root.length=rootLimit cfg) := by
  obtain ⟨f,pre,x,post,hprobe,hslot,hp⟩ := hs.shape.probe hs.ranged.keys_le hknown
    ((hashing seed t.version).hash d.name.bytes)
  have hleaves := hslot.leaves_eq
  have hx : x∈t.leaves := by
    rw [hleaves]
    simp
  obtain ⟨rs,hl,hu⟩ := hs.leaf x hx
  have hno : ∀ r∈rs,r.hit d.name.bytes=false := by
    rw [not_hit_iff,← hl.blockEntries]
    exact not_mem_of_leaf hx habs
  obtain ⟨-,hlim⟩ := hslot.entries_room hs.shape
  unfold dxAddEntry
  dsimp only
  rw [hprobe]
  dsimp only
  rw [hslot.leafBlock]
  rcases hl.findRoom hno with ⟨rpre,r,rpost,rfl,hroom,he⟩ | ⟨hfull,he⟩
  · rw [he]
    obtain ⟨g1,g2⟩ := hs.addHere hleaves hp hd hl hu hroom
    exact .inl ⟨_,rfl,g1,rfl,g2⟩
  rw [he]
  have h2 := hl.two_live hu (reclen_bounds d).2 hfull
  by_cases hlimit : (t.entries f).length=if f.node.isSome then nodeLimit cfg else rootLimit cfg
  · rw [if_pos hlimit]
    rcases hs.shape.splitIndex hslot hlimit with ⟨hn,hfull⟩ | ⟨t',f',hsome,hw⟩
    · rw [hn]
      exact .inr ⟨rfl,hfull⟩
    · rw [hsome]
      exact .inl ⟨_,rfl,hw.splitLeaf hs hleaves hl hu h2 hd hp fresh⟩
  · rw [if_neg hlimit]
    have hw : Widened cfg t t f pre x post := ⟨hs.shape,⟨_,hslot⟩,by omega,rfl,rfl⟩
    exact .inl ⟨_,rfl,hw.splitLeaf hs hleaves hl hu h2 hd hp fresh⟩

end Ext2fsX.Htree
