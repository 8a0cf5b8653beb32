import Ext2fsX.Growth.Write

namespace Ext2fsX.Growth

open Framework
open Alloc (Slot target level level_cons target_level)
open Blocks (Geometry Errno Panic int32)

variable {g : Geometry} {f0 f f' : File} {k : ℕ} {got : List ℕ}

/-- In the middle of a call that began with `f0` and has allocated the blocks `got` below pointer
`k`, which was not set. -/
structure Draft (g : Geometry) (f0 f : File) (k : ℕ) (got : List ℕ) : Prop where
  ptr : ∀ p : Slot,p.getLast?≠some k → f.ptr p=f0.ptr p
  held : ∀ x,f0.used x=true → ¬InWindow f0 x → f.used x=true
  fresh : ∀ b∈got,b≠0 ∧ (f0.used b=false ∨ InWindow f0 b)
  back : ∀ x,f.used x=true → x∈got ∨ InWindow f x ∨ (f0.used x=true ∧ ¬InWindow f0 x)
  blocks : f.blocks=int32 (f0.blocks+(got.length*btodb g.blocksize : ℕ))

structure OpenDraft (g : Geometry) (f0 f : File) (k : ℕ) (got : List ℕ) : Prop
    extends Draft g f0 f k got where
  window : ∀ x,InWindow f x → f.used x=true ∧ 0<x ∧ (f0.used x=false ∨ InWindow f0 x)
  bounded : Bounded f

theorem OpenDraft.start (hf : WellFormed g f) (hb : Bounded f) (k : ℕ) : OpenDraft g f f k [] where
  ptr _ _ := rfl
  held _ hx _ := hx
  fresh := nofun
  back x hx := by
    by_cases hw : InWindow f x
    · exact .inr (.inl hw)
    · exact .inr (.inr ⟨hx,hw⟩)
  blocks := by
    rw [List.length_nil,Nat.zero_mul,Nat.cast_zero,add_zero,hf.int32_blocks]
  window x hx := ⟨(hf.window x hx).1,(hf.window x hx).2.2,.inr hx⟩
  bounded := hb

namespace OpenDraft

section

variable (h : OpenDraft g f0 f k got)

include h

theorem fresh_before {x : ℕ} (hx : f.used x=false ∨ InWindow f x) :
    f0.used x=false ∨ InWindow f0 x := by
  rcases hx with hx | hx
  · by_contra hn
    rw [not_or,Bool.not_eq_false] at hn
    rw [h.held x hn.1 hn.2] at hx
    cases hx
  · exact (h.window x hx).2.2

theorem window_used (x : ℕ) (hx : InWindow f x) :
    f.used x=true ∧ 0<x := ⟨(h.window x hx).1,(h.window x hx).2.1⟩

theorem outside {x : ℕ} (hx : f0.used x=true) (hn : ¬InWindow f0 x) : ¬InWindow f x := by
  intro hw
  rcases (h.window x hw).2.2 with hu | hw
  · rw [hx] at hu
    cases hu
  · exact hn hw

theorem refused (hr : Refused f f') : Draft g f0 f' k got where
  ptr p hp := by rw [hr.ptr,h.ptr p hp]
  held x hx hn := hr.kept x (h.held x hx hn) (h.outside hx hn)
  fresh := h.fresh
  back x hx := by
    rcases hr.back x hx with hw | ⟨hu,hn⟩
    · exact .inr (.inl hw)
    · rcases h.back x hu with hg | hw | hold
      · exact .inl hg
      · exact absurd hw hn
      · exact .inr (.inr hold)
  blocks := hr.blocks.trans h.blocks

theorem taken {b : ℕ} (ht : Taken f f' b)
    (hblocks : f'.blocks=int32 (f.blocks+btodb g.blocksize)) : OpenDraft g f0 f' k (got++[b]) where
  ptr p hp := by rw [ht.ptr,h.ptr p hp]
  held x hx hn := ht.kept x (h.held x hx hn) (h.outside hx hn)
  fresh c hc := by
    rcases List.mem_append.mp hc with hc | hc
    · exact h.fresh c hc
    · obtain rfl := List.mem_singleton.mp hc
      exact ⟨ht.pos.ne',h.fresh_before ht.fresh⟩
  back x hx := by
    rcases ht.back x hx with rfl | hw | ⟨hu,hn⟩
    · exact .inl (List.mem_append_right got List.mem_cons_self)
    · exact .inr (.inl hw)
    · rcases h.back x hu with hg | hw | hold
      · exact .inl (List.mem_append_left _ hg)
      · exact absurd hw hn
      · exact .inr (.inr hold)
  blocks := by
    rw [hblocks,h.blocks,List.length_append,List.length_singleton,Nat.succ_mul]
    simp only [int32]
    rw [Int.bmod_add_bmod,Nat.cast_add,add_assoc]
  window x hx := by
    obtain ⟨hu,-,hpos,hold⟩ := ht.window x hx
    exact ⟨hu,hpos,h.fresh_before hold⟩
  bounded x hx := h.bounded x (ht.fresh_before hx)

theorem rewrite {ptr : Slot → ℕ}
    (hp : ∀ p : Slot,p.getLast?≠some k → ptr p=f.ptr p) : OpenDraft g f0 { f with ptr := ptr } k got where
  ptr p hne := (hp p hne).trans (h.ptr p hne)
  held := h.held
  fresh := h.fresh
  back := h.back
  blocks := h.blocks
  window := h.window
  bounded := h.bounded

end

end OpenDraft

theorem blkfree_used (f : File) (b x : ℕ) :
    (f.blkfree g b).used x=true ↔ f.used x=true ∧ ¬(b≤x ∧ x<b+g.blocksize/g.fsize) := by
  simp only [File.blkfree,File.freeBlocks,Bool.and_eq_true,Bool.not_eq_true',Bool.and_eq_false_iff,
    decide_eq_false_iff_not,not_and_or]

theorem frees_fields (got : List ℕ) (f : File) :
    (∀ x,(got.foldl (fun f b => f.blkfree g b) f).used x=true ↔
      f.used x=true ∧ ∀ b∈got,¬(b≤x ∧ x<b+g.blocksize/g.fsize)) ∧
    (got.foldl (fun f b => f.blkfree g b) f).ptr=f.ptr ∧
    (got.foldl (fun f b => f.blkfree g b) f).blocks=f.blocks ∧
    (∀ x,InWindow (got.foldl (fun f b => f.blkfree g b) f) x ↔ InWindow f x) := by
  induction got generalizing f with
  | nil => simp
  | cons b got ih =>
    obtain ⟨hused,hptr,hblocks,hwindow⟩ := ih (f.blkfree g b)
    refine ⟨?_,hptr,hblocks,hwindow⟩
    intro x
    rw [List.foldl_cons,hused,List.forall_mem_cons,← and_assoc,blkfree_used]

theorem fail_fields (f : File) (got : List ℕ) (root : Option Slot) :
    (∀ x,(f.fail g got root).used x=true ↔
      f.used x=true ∧ ∀ b∈got,¬(b≤x ∧ x<b+g.blocksize/g.fsize)) ∧
    (f.fail g got root).ptr=root.elim f.ptr (fun p => Function.update f.ptr p 0) ∧
    (∀ x,InWindow (f.fail g got root) x ↔ InWindow f x) ∧
    (f.fail g got root).blocks=
      if got.isEmpty then f.blocks else int32 (f.blocks-btodb (got.length*g.blocksize)) := by
  obtain ⟨hused,hptr,hblocks,hwindow⟩ := frees_fields (g := g) got f
  unfold File.fail
  cases root with
  | none =>
    dsimp only
    split
    · exact ⟨hused,hptr,hwindow,hblocks⟩
    · exact ⟨hused,hptr,hwindow,by rw [hblocks]⟩
  | some p =>
    have hptr' := congrArg (Function.update · p 0) hptr
    dsimp only
    split
    · exact ⟨hused,hptr',hwindow,hblocks⟩
    · exact ⟨hused,hptr',hwindow,congrArg (fun n => int32 (n-btodb (got.length*g.blocksize))) hblocks⟩

variable {p : Slot} {bn size : ℕ}

theorem fail_none (h0 : f.ptr p=0) : f.fail g got none=f.fail g got (some p) := by
  have hptr := (frees_fields (g := g) got f).2.1
  have hsame : (got.foldl (fun f b => f.blkfree g b) f).store p 0=
      got.foldl (fun f b => f.blkfree g b) f := by
    rw [File.store,← h0,hptr,Function.update_eq_self,← hptr]
  unfold File.fail
  dsimp only
  rw [hsame]

/-- The blocks that `ext2_blkfree` frees with a block that can be had are none of the file's. -/
def FreesOwn (g : Geometry) (f : File) : Prop :=
  0<g.blocksize/g.fsize ∧ ∀ b x,b≠0 → f.used b=false ∨ InWindow f b → Reached g f x →
    ¬(b<x ∧ x<b+g.blocksize/g.fsize)

theorem btodb_mul (g : Geometry) (n : ℕ) : btodb (n*g.blocksize)=n*btodb g.blocksize := by
  have hblock : g.blocksize=512*btodb g.blocksize := by
    unfold btodb Geometry.blocksize
    omega
  exact Nat.mul_div_assoc n ⟨_,hblock⟩

theorem reached_off_root (h0 : f0.ptr [k]=0) (h0' : f'.ptr [k]=0)
    (hp : ∀ p : Slot,p.getLast?≠some k → f'.ptr p=f0.ptr p) (x : ℕ) :
    Reached g f' x ↔ Reached g f0 x := by
  have hoff {ptr : Slot → ℕ} (hz : ptr [k]=0) {p : Slot} (hl : Live ptr p) : p.getLast?≠some k := by
    intro hlast
    obtain ⟨q,rfl⟩ := List.getLast?_eq_some_iff.mp hlast
    exact (live_suffix q [k] hl).1 hz
  have hlive {ptr ptr' : Slot → ℕ} (hz : ptr [k]=0)
      (he : ∀ p : Slot,p.getLast?≠some k → ptr' p=ptr p) {p : Slot} (hl : Live ptr p) : Live ptr' p := by
    induction p with
    | nil => trivial
    | cons o q ih =>
      refine ⟨?_,ih hl.2⟩
      rw [he (o::q) (hoff hz hl)]
      exact hl.1
  constructor
  · rintro ⟨p,hlevel,hl,rfl⟩
    exact ⟨p,hlevel,hlive h0' (fun p hne => (hp p hne).symm) hl,(hp p (hoff h0' hl)).symm⟩
  · rintro ⟨p,hlevel,hl,rfl⟩
    exact ⟨p,hlevel,hlive h0 hp hl,hp p (hoff h0 hl)⟩

theorem WellFormed.blocks_back (h : WellFormed g f) (n : ℤ) :
    int32 (int32 (f.blocks+n)-n)=f.blocks := by
  have hsame := h.int32_blocks
  simp only [int32] at hsame ⊢
  rw [Int.bmod_sub_bmod,add_sub_cancel_right,hsame]

theorem Draft.fail (h : Draft g f0 f k got) (hf : WellFormed g f0) (h0 : f0.ptr [k]=0)
    (hfree : FreesOwn g f0) : Clean g f0 (f.fail g got (some [k])) := by
  obtain ⟨hused,hptr,hwindow,hblocks⟩ := fail_fields (g := g) f got (some [k])
  have hreach (x : ℕ) : Reached g (f.fail g got (some [k])) x ↔ Reached g f0 x := by
    apply reached_off_root h0
    · rw [hptr]
      exact Function.update_self ..
    · intro p hp
      have hne : p≠[k] := by
        rintro rfl
        exact hp rfl
      rw [hptr,Option.elim,Function.update_of_ne hne,h.ptr p hp]
  refine ⟨?_,?_,?_⟩
  · rw [sectors_congr hreach,← hf.blocks,hblocks,h.blocks,btodb_mul]
    split
    case isTrue he =>
      rw [List.isEmpty_iff.mp he,List.length_nil,Nat.zero_mul,Nat.cast_zero,add_zero,hf.int32_blocks]
    case isFalse => exact hf.blocks_back _
  · intro x hx
    obtain ⟨hu,hout⟩ := (hused x).mp hx
    rcases h.back x hu with hg | hw | ⟨hu0,hn0⟩
    · exact absurd ⟨le_rfl,Nat.lt_add_of_pos_right hfree.1⟩ (hout x hg)
    · exact .inr (.inl ((hwindow x).mpr hw))
    · by_cases hr : Reached g f0 x
      · exact .inl ((hreach x).mpr hr)
      · exact .inr (.inr ⟨hu0,hr,hn0⟩)
  · intro x hx
    have hr := (hreach x).mp hx
    have hn : ¬InWindow f0 x := fun hw => (hf.window x hw).2.1 hr
    refine (hused x).mpr ⟨h.held x (hf.reached x hr) hn,?_⟩
    rintro b hb ⟨hle,hlt⟩
    obtain ⟨hb0,hfresh⟩ := h.fresh b hb
    rcases hle.lt_or_eq with hlt' | rfl
    · exact hfree.2 b x hb0 hfresh hr ⟨hlt',hlt⟩
    · rcases hfresh with hu | hw
      · rw [hf.reached b hr] at hu
        cases hu
      · exact hn hw

variable {ans : ℕ → Answer} {sync : Bool} {e : Errno}

theorem blkallocPath_clean (hf : WellFormed g f) (rest : List ℕ) (p : Slot) (i : ℕ)
    (hs : Live f.ptr (rest.reverse++p) ∨ NoBlock f ∨ Bounded f ∧ Live f.ptr (rest.reverse++p).tail)
    (hr : f.blkallocPath g sync ans none rest p i []=(f',e)) (he : e≠.ok) : Clean g f f' := by
  induction rest generalizing p i with
  | nil =>
    cases hr
    exact absurd rfl he
  | cons o rest ih =>
    rw [List.reverse_cons,← List.append_cons] at hs
    rw [File.blkallocPath] at hr
    split at hr
    · cases hr
      exact Clean.refl hf
    by_cases h0 : f.ptr (o::p)=0
    · rw [if_neg (not_not.mpr h0)] at hr
      have hs' := hs.resolve_left fun hl => (live_suffix _ _ hl).1 h0
      have hinv : Inv g f f := Inv.refl hf (hs'.elim NoBlock.bounded fun h => h.1)
      rcases ha : f.alloc (ans i) g.blocksize with ⟨f1,r⟩
      rw [ha] at hr
      cases r with
      | none =>
        cases hr
        exact hinv.none ha
      | some b =>
        have htail := (hs'.resolve_left fun hn => hn.alloc_none hf.window_used ha).2
        cases rest with
        | nil =>
          cases hr
          exact absurd rfl he
        | cons o' rest =>
          rw [List.tail_append_of_ne_nil (by simp)] at htail
          exact absurd h0 (live_suffix _ _ htail).1
    · rw [if_pos h0] at hr
      exact ih (o::p) (i+1) hs hr

theorem getLast?_below {o : ℕ} (hp : p.getLast?=some k) : (o::p).getLast?=some k := by
  rw [List.getLast?_cons,hp]
  rfl

theorem clear_off (f : File) {q : Slot} (hp : p.getLast?=some k) (hq : q.getLast?≠some k) :
    (f.clear p).ptr q=f.ptr q := by
  cases q with
  | nil => rfl
  | cons x q =>
    have hne : q≠p := by
      rintro rfl
      exact hq (getLast?_below hp)
    exact if_neg hne

theorem OpenDraft.root (h : OpenDraft g f0 f k got) (b : ℕ) :
    OpenDraft g f0 ((f.clear [k]).store [k] b) k got := by
  refine h.rewrite fun q hq => ?_
  have hne : q≠[k] := by
    rintro rfl
    exact hq rfl
  exact (Function.update_of_ne hne ..).trans (clear_off f rfl hq)

theorem OpenDraft.link (h : OpenDraft g f0 f k got) (sync : Bool) (a : Answer) {o b : ℕ}
    (hp : p.getLast?=some k) : OpenDraft g f0 ((f.clear (o::p)).link sync a (o::p) b) k got := by
  unfold File.link
  split
  · refine h.rewrite fun q hq => ?_
    have hne : ¬(q.tail=p ∧ q≠[]) := by
      rintro ⟨htail,hnil⟩
      obtain ⟨x,q,rfl⟩ := List.exists_cons_of_ne_nil hnil
      obtain rfl : q=p := htail
      exact hq (getLast?_below hp)
    exact (if_neg hne).trans (clear_off f (getLast?_below hp) hq)
  · refine h.rewrite fun q hq => ?_
    have hne : q≠o::p := by
      rintro rfl
      exact hq (getLast?_below hp)
    exact (Function.update_of_ne hne ..).trans (clear_off f (getLast?_below hp) hq)

theorem blkallocPath_undone (hf : WellFormed g f0) (h0 : f0.ptr [k]=0) (hfree : FreesOwn g f0)
    (rest : List ℕ) (p : Slot) (i : ℕ) (hp : p.getLast?=some k) (h : OpenDraft g f0 f k got)
    (hr : f.blkallocPath g sync ans (some [k]) rest p i got=(f',e)) (he : e≠.ok) :
    Clean g f0 f' := by
  induction rest generalizing p i got f with
  | nil =>
    cases hr
    exact absurd rfl he
  | cons o rest ih =>
    have hp' : (o::p).getLast?=some k := getLast?_below hp
    rw [File.blkallocPath] at hr
    split at hr
    · cases hr
      exact h.fail hf h0 hfree
    by_cases hz : f.ptr (o::p)=0
    · rw [if_neg (not_not.mpr hz)] at hr
      rcases ha : f.alloc (ans i) g.blocksize with ⟨f1,r⟩
      rw [ha] at hr
      cases r with
      | none =>
        cases hr
        exact (h.refused (alloc_none h.window_used h.bounded ha)).fail hf h0 hfree
      | some b =>
        obtain ⟨ht,-,hblocks⟩ := alloc_some h.window_used ha
        have hnext := h.taken ht hblocks
        dsimp only at hr
        split at hr
        · cases hr
          exact absurd rfl he
        split at hr
        · cases hr
          exact hnext.fail hf h0 hfree
        · exact ih (o::p) (i+1) hp' (hnext.link sync (ans i) hp) hr
    · rw [if_pos hz] at hr
      exact ih (o::p) (i+1) hp' h hr

/-- One of the first two panics; or the block is there, or none can be had; or every block number
fits an `int` and no indirect block is missing or all are. -/
def Undoable (g : Geometry) (f : File) (bn size : ℕ) : Prop :=
  g.blocksize < size ∨
  int32 ((f.size/g.blocksize : ℕ) : ℤ)<12 ∧ int32 ((f.size/g.blocksize : ℕ) : ℤ)<bn ∨
  ∀ k offs,target g bn=some (k,offs) → Live f.ptr (dataSlot k offs) ∨ NoBlock f ∨
    Bounded f ∧ (Live f.ptr (dataSlot k offs).tail ∨ f.ptr [k]=0 ∧ FreesOwn g f)

theorem blkallocDirect_clean (hf : WellFormed g f) {a : Answer}
    (hs : f.ptr [k]=0 → Bounded f) (hr : f.blkallocDirect g a k size=.ok (f',e)) (he : e≠.ok) :
    Clean g f f' := by
  unfold File.blkallocDirect at hr
  by_cases h0 : f.ptr [k]=0
  · rw [if_neg (not_not.mpr h0)] at hr
    have hinv : Inv g f f := Inv.refl hf (hs h0)
    rcases ha : f.alloc a (f.nsize g k size) with ⟨f1,r⟩
    rw [ha] at hr
    cases r with
    | none =>
      cases hr
      exact hinv.none ha
    | some b =>
      cases hr
      exact absurd rfl he
  · rw [if_pos h0] at hr
    split at hr
    · cases hr
      exact absurd rfl he
    · cases hr

variable {offs : List ℕ}

theorem blkallocIndirect_undone (hf : WellFormed g f) (h0 : f.ptr [k]=0)
    (hs : NoBlock f ∨ Bounded f ∧ FreesOwn g f) (hr : f.blkallocIndirect g sync ans k offs=(f',e))
    (he : e≠.ok) : Clean g f f' := by
  unfold File.blkallocIndirect at hr
  rw [if_neg (not_not.mpr h0)] at hr
  have hbounded : Bounded f := hs.elim NoBlock.bounded fun h => h.1
  rcases ha : f.alloc (ans 0) g.blocksize with ⟨f1,r⟩
  rw [ha] at hr
  cases r with
  | none =>
    cases hr
    exact (Inv.refl hf hbounded).none ha
  | some b =>
    have hfree := (hs.resolve_left fun hn => hn.alloc_none hf.window_used ha).2
    obtain ⟨ht,-,hblocks⟩ := alloc_some hf.window_used ha
    have hnext := (OpenDraft.start hf hbounded k).taken ht hblocks
    dsimp only at hr
    split at hr
    · cases hr
      rw [fail_none (p := [k]) (ht.ptr.symm ▸ h0)]
      exact hnext.fail hf h0 hfree
    · exact blkallocPath_undone hf h0 hfree offs [k] 1 rfl (hnext.root b) hr he

theorem blkalloc_clean (hf : WellFormed g f) (hs : Undoable g f bn size)
    (hr : f.blkalloc g sync ans bn size=.ok (f',e)) (he : e≠.ok) : Clean g f f' := by
  unfold File.blkalloc at hr
  dsimp only at hr
  split at hr
  · cases hr
  split at hr
  · cases hr
  case isFalse.isFalse hsmall hextend =>
  have hs := (hs.resolve_left hsmall).resolve_left hextend
  cases ht : target g bn with
  | none =>
    rw [ht] at hr
    cases hr
    exact Clean.refl hf
  | some x =>
    obtain ⟨k,offs⟩ := x
    have hs' := hs k offs ht
    rw [ht] at hr
    cases offs with
    | nil =>
      refine blkallocDirect_clean hf (fun h0 => ?_) hr he
      exact (hs'.resolve_left fun hl => hl.1 h0).elim NoBlock.bounded fun h => h.1
    | cons o rest =>
      have hr := Except.ok.inj hr
      by_cases h0 : f.ptr [k]=0
      · have hs' := hs'.resolve_left fun hl => (live_suffix (o::rest).reverse [k] hl).1 h0
        refine blkallocIndirect_undone hf h0 (hs'.imp_right ?_) hr he
        rintro ⟨hb,hl | hroot⟩
        · rw [dataSlot,List.tail_append_of_ne_nil (by simp)] at hl
          exact absurd h0 (live_suffix _ [k] hl).1
        · exact ⟨hb,hroot.2⟩
      · rw [File.blkallocIndirect,if_pos h0] at hr
        refine blkallocPath_clean hf (o::rest) [k] 1 ?_ hr he
        exact hs'.imp_right (Or.imp_right fun h => ⟨h.1,h.2.resolve_right fun hz => h0 hz.1⟩)

theorem blkallocPath_skip {root : Option Slot} (pre : List ℕ) (rest : List ℕ) (p : Slot) (i : ℕ)
    (hread : ∀ j<pre.length,(ans (i+j)).read=true) (hl : Live f.ptr (pre.reverse++p)) :
    f.blkallocPath g sync ans root (pre++rest) p i got=
      f.blkallocPath g sync ans root rest (pre.reverse++p) (i+pre.length) got := by
  induction pre generalizing p i with
  | nil => rfl
  | cons x pre ih =>
    rw [List.reverse_cons,List.append_assoc] at hl ⊢
    have h0 : f.ptr (x::p)≠0 := (live_suffix pre.reverse (x::p) hl).1
    have hfirst : (ans i).read=true := hread 0 (Nat.zero_lt_succ _)
    have hrest : ∀ j<pre.length,(ans (i+1+j)).read=true := by
      intro j hj
      rw [Nat.add_assoc,Nat.add_comm 1 j]
      exact hread (j+1) (Nat.succ_lt_succ hj)
    rw [List.cons_append,File.blkallocPath,if_neg (by simp [hfirst]),if_pos h0,
      ih (x::p) (i+1) hrest hl,List.length_cons]
    congr 1
    omega

section

variable (hsmall : ¬g.blocksize < size)
  (hextend : ¬(int32 ((f.size/g.blocksize : ℕ) : ℤ)<12 ∧ int32 ((f.size/g.blocksize : ℕ) : ℤ)<bn))
  (ht : target g bn=some (k,offs))

include hsmall hextend ht

theorem blkalloc_indirect (hne : offs≠[]) :
    f.blkalloc g sync ans bn size=.ok (f.blkallocIndirect g sync ans k offs) := by
  unfold File.blkalloc
  rw [if_neg hsmall,if_neg hextend,ht]
  cases offs with
  | nil => exact absurd rfl hne
  | cons o rest => rfl

theorem blkalloc_refused {a : Answer} {f1 : File} (hread : a.read=true)
    (hgap : ¬Live f.ptr (dataSlot k offs)) (ha : ∀ n,f.alloc a n=(f1,none)) :
    f.blkalloc g sync (fun _ => a) bn size=.ok (f1,.enospc) := by
  by_cases hne : offs=[]
  · subst hne
    have h0 : f.ptr [k]=0 := by
      by_contra h0
      exact hgap ⟨h0,trivial⟩
    unfold File.blkalloc
    rw [if_neg hsmall,if_neg hextend,ht]
    dsimp only
    rw [File.blkallocDirect,if_neg (not_not.mpr h0),ha]
  · rw [blkalloc_indirect hsmall hextend ht hne]
    by_cases h0 : f.ptr [k]=0
    · rw [File.blkallocIndirect,if_neg (not_not.mpr h0),ha]
    · obtain ⟨pre,o,post,rfl,hl,hz⟩ := first_gap (p := [k]) ⟨h0,trivial⟩ hgap
      rw [File.blkallocIndirect,if_pos h0,blkallocPath_skip pre (o::post) [k] 1 (fun _ _ => hread) hl,
        File.blkallocPath,if_neg (by simp [hread]),if_neg (not_not.mpr hz),ha]
      rfl

end

theorem blkallocIndirect_dangling (hf : WellFormed g f) {b : ℕ} (sync : Bool)
    (hlevel : level g [k]=some offs.length) (hoffs : ∀ o∈offs,o<g.nindir) (h0 : f.ptr [k]≠0)
    (hgap : ¬Live f.ptr (dataSlot k offs).tail) (hb : b≠0) (hlt : b<2^31)
    (hfree : f.used b=false ∨ InWindow f b) :
    ∃ ans f',f.blkallocIndirect g sync ans k offs=(f',.eio) ∧ ¬Clean g f f' := by
  obtain ⟨pre,o,post,rfl,hpost,hl,hz⟩ := first_inner_gap h0 hgap
  obtain ⟨o',post,rfl⟩ := List.exists_cons_of_ne_nil hpost
  let ans (i : ℕ) : Answer := { pick f b with read := decide (i≠1+pre.length+1) }
  obtain ⟨f1,ha,hptr,-,-,hblocks⟩ :=
    alloc_small (a := ans (1+pre.length)) rfl rfl rfl hb hlt hfree g.blocksize
  let s : Slot := o::(pre.reverse++[k])
  have hread (j : ℕ) (hj : j<pre.length) : (ans (1+j)).read=true := decide_eq_true (by omega)
  have hhere : (ans (1+pre.length)).read=true := decide_eq_true (by omega)
  have hnext : (ans (1+pre.length+1)).read=false := decide_eq_false (by omega)
  have hlinked : (f1.clear s).link sync (ans (1+pre.length)) s b=(f1.clear s).store s b :=
    link_store _ (.inl rfl) s b
  have hrun : f.blkallocIndirect g sync ans k (pre++o::o'::post)=
      (((f1.clear s).store s b).fail g [b] none,.eio) := by
    rw [File.blkallocIndirect,if_pos h0,blkallocPath_skip pre (o::o'::post) [k] 1 hread hl,
      File.blkallocPath,if_neg (by simp [hhere]),if_neg (not_not.mpr hz),ha]
    dsimp only
    rw [if_neg (by simp),if_neg (by simp [ans,pick]),
      hlinked,File.blkallocPath,if_pos hnext,List.nil_append]
  refine ⟨ans,_,hrun,?_⟩
  intro hc
  obtain ⟨-,hfptr,-,hfblocks⟩ := fail_fields (g := g) ((f1.clear s).store s b) [b] none
  have hnew : ¬Reached g f b := (alloc_some hf.window_used ha).1.not_reached hf
  have hslevel : (level g s).isSome := by
    have hlen : level g [k]=some ((pre++[o]).length+(o'::post).length) := by
      rw [hlevel,← List.length_append,List.append_assoc]
      rfl
    have hpath := level_path (pre++[o]) [k] hlen fun x hx =>
      hoffs x ((List.append_assoc pre [o] (o'::post)) ▸ List.mem_append_left _ hx)
    rw [List.reverse_append] at hpath
    exact Option.isSome_iff_exists.mpr ⟨_,hpath⟩
  have hz' : f1.ptr s=0 := hptr ▸ hz
  have hreach (x : ℕ) :
      Reached g (((f1.clear s).store s b).fail g [b] none) x ↔ Reached g f x ∨ x=b := by
    rw [reached_congr hfptr,reached_store hslevel ((Live.clearUnder_iff hz' _).mpr (hptr ▸ hl))
      ((clear_self f1 _ _).trans hz') hb (fun o' _ => clear_under f1 _ o' _),reached_clear hz',
      reached_congr hptr]
  have hbal := hc.balanced
  have hback : int32 (f1.blocks-btodb (1*g.blocksize))=f.blocks := by
    rw [hblocks,Nat.one_mul,hf.blocks_back]
  rw [sectors_insert hnew hreach,← hf.blocks,hfblocks] at hbal
  have hzero : int32 (f.blocks+(0 : ℕ))=f.blocks := by rw [Nat.cast_zero,add_zero,hf.int32_blocks]
  have hmod := int32_add_inj (hzero.trans (hback.symm.trans hbal))
  have hpos := btodb_block g
  omega

/-- What is freed for a new root that cannot be written must be the block, and nothing else of the
file. -/
theorem freesOwn_of_clean (hf : WellFormed g f) (hbounded : Bounded f)
    (hblock : ∃ b,b≠0 ∧ (f.used b=false ∨ InWindow f b)) (h0 : f.ptr [k]=0)
    (h : ∀ ans f' e,f.blkallocIndirect g sync ans k offs=(f',e) → e≠.ok → Clean g f f') :
    FreesOwn g f := by
  have hrun {b : ℕ} (hb : b≠0) (hfree : f.used b=false ∨ InWindow f b) :
      ∃ f1 : File,f1.ptr=f.ptr ∧ f1.used b=true ∧ (∀ x,¬InWindow f1 x) ∧
        Clean g f (f1.fail g [b] none) := by
    obtain ⟨f1,ha,hptr,hused,hwin,-⟩ := alloc_small (a := { pick f b with write := false }) rfl rfl rfl
      hb (hbounded b hfree) hfree g.blocksize
    refine ⟨f1,hptr,hused,hwin,h (fun _ => { pick f b with write := false }) _ .eio ?_ nofun⟩
    rw [File.blkallocIndirect,if_neg (not_not.mpr h0),ha]
    exact if_pos rfl
  constructor
  · obtain ⟨b,hb,hfree⟩ := hblock
    obtain ⟨f1,hptr,hused,hwin,hc⟩ := hrun hb hfree
    obtain ⟨hfused,hfptr,hfwin,-⟩ := fail_fields (g := g) f1 [b] none
    by_contra hzero
    refine not_clean_lost hf hfree (hfptr.trans hptr) ?_ (fun hw => hwin b ((hfwin b).mp hw)) hc
    refine (hfused b).mpr ⟨hused,?_⟩
    omega
  · rintro b x hb hfree hr ⟨hlt,hrange⟩
    obtain ⟨f1,hptr,-,-,hc⟩ := hrun hb hfree
    obtain ⟨hfused,hfptr,-,-⟩ := fail_fields (g := g) f1 [b] none
    have hreach := (reached_congr (g := g) (hfptr.trans hptr) x).mpr hr
    have hx := ((hfused x).mp (hc.referenced x hreach)).2 b List.mem_cons_self
    exact hx ⟨hlt.le,hrange⟩

/-- Every error return leaves `i_blocks` right, no block lost and no pointer to a free block,
exactly if the file and the call are `Undoable`. -/
theorem blkalloc_undone_iff (g : Geometry) (f : File) (hf : WellFormed g f) (sync : Bool)
    (bn size : ℕ) :
    (∀ ans f' e,f.blkalloc g sync ans bn size=.ok (f',e) → e≠.ok → Clean g f f') ↔
      Undoable g f bn size := by
  refine ⟨?_,fun hs ans f' e hr he => blkalloc_clean hf hs hr he⟩
  intro h
  by_contra hn
  obtain ⟨hsmall,hn⟩ := not_or.mp hn
  obtain ⟨hextend,hn⟩ := not_or.mp hn
  apply hn
  intro k offs ht
  by_contra hn
  obtain ⟨hgap,hn⟩ := not_or.mp hn
  obtain ⟨hblock,hn⟩ := not_or.mp hn
  -- a block whose number is too large is lost
  have hbounded : Bounded f := by
    intro b hfree
    by_contra hlarge
    obtain ⟨f1,ha,hptr,hused,hwin⟩ :=
      alloc_large (a := pick f b) rfl rfl rfl (not_lt.mp hlarge) hfree
    have hr : f.blkalloc g sync _ bn size=_ := blkalloc_refused hsmall hextend ht rfl hgap ha
    exact not_clean_lost hf hfree hptr hused hwin (h _ _ _ hr (by simp))
  refine hn ⟨hbounded,or_iff_not_imp_left.mpr ?_⟩
  intro htail
  have hne : offs≠[] := by
    rintro rfl
    exact htail trivial
  have hcall (ans : ℕ → Answer) (f' : File) (e : Errno)
      (hr : f.blkallocIndirect g sync ans k offs=(f',e)) (he : e≠.ok) : Clean g f f' := by
    refine h ans f' e ?_ he
    rw [blkalloc_indirect hsmall hextend ht hne,hr]
  by_cases h0 : f.ptr [k]=0
  · exact ⟨h0,freesOwn_of_clean hf hbounded (exists_block hblock) h0 hcall⟩
  · obtain ⟨b,hb,hfree⟩ := exists_block hblock
    obtain ⟨hlevel,hoffs⟩ := target_level ht
    obtain ⟨ans,f',hr,hnot⟩ :=
      blkallocIndirect_dangling hf sync hlevel hoffs h0 htail hb (hbounded b hfree) hfree
    exact absurd (hcall ans f' .eio hr (by simp)) hnot

def hole : File := { bare with size := 13*1024 }

theorem blkalloc_undone_hole : WellFormed Blocks.kilo hole ∧ Undoable Blocks.kilo hole 12 1024 ∧
    ∀ ans f' e,hole.blkalloc Blocks.kilo true ans 12 1024=.ok (f',e) → e≠.ok →
      Clean Blocks.kilo hole f' := by
  have hwf : WellFormed Blocks.kilo hole :=
    ⟨(bare_wellFormed Blocks.kilo).reached,(bare_wellFormed Blocks.kilo).window,
      (bare_wellFormed Blocks.kilo).blocks⟩
  have hown : FreesOwn Blocks.kilo hole := by
    refine ⟨by decide,?_⟩
    rintro b x - - - ⟨hlt,hrange⟩
    have hone : Blocks.kilo.blocksize/Blocks.kilo.fsize=1 := by decide
    omega
  have hundoable : Undoable Blocks.kilo hole 12 1024 := by
    refine .inr (.inr ?_)
    rintro k offs -
    exact .inr (.inr ⟨bare_bounded,.inr ⟨rfl,hown⟩⟩)
  exact ⟨hwf,hundoable,(blkalloc_undone_iff Blocks.kilo hole hwf true 12 1024).mpr hundoable⟩

def stub : File :=
  { bare with ptr := fun p => if p=[13] then 50 else 0, size := 269*1024, blocks := 2 }

theorem stub_reached (b : ℕ) : Reached Blocks.kilo stub b ↔ b=50 := by
  constructor
  · rintro ⟨p,hp,hl,rfl⟩
    cases p with
    | nil => cases hp
    | cons o q =>
      by_cases he : o::q=[13]
      · exact if_pos he
      · exact absurd (if_neg he) hl.1
  · rintro rfl
    exact ⟨[13],rfl,⟨by decide,trivial⟩,rfl⟩

theorem stub_wellFormed : WellFormed Blocks.kilo stub where
  reached b hb := by
    rw [stub_reached] at hb
    subst hb
    rfl
  window b hb := absurd hb.2 (by simp [stub,bare])
  blocks := by
    have hset : {b | Reached Blocks.kilo stub b}={50} := Set.ext stub_reached
    rw [sectors,hset,Set.ncard_singleton]
    decide

/-- Block 100 becomes the indirect block of block 268, then the disk is full. Block 100 is given
back, and block 50 still points to it. -/
theorem blkalloc_dangling : WellFormed Blocks.kilo stub ∧
    ∃ f',stub.blkalloc Blocks.kilo false
        (fun i => if i=1 then pick stub 100 else { pick stub 100 with full := true }) 268 1024=
        .ok (f',.enospc) ∧
      f'.ptr [13]=50 ∧ f'.ptr [0,13]=100 ∧ f'.used 100=false ∧ Reached Blocks.kilo f' 100 ∧
      ¬Clean Blocks.kilo stub f' := by
  have hreach {f' : File} (hroot : f'.ptr [13]=50) (hptr : f'.ptr [0,13]=100) :
      Reached Blocks.kilo f' 100 := by
    refine ⟨[0,13],by decide,⟨?_,?_,trivial⟩,hptr⟩
    · rw [hptr]
      decide
    · rw [hroot]
      decide
  have ht : target Blocks.kilo 268=some (13,[0,0]) := by decide +kernel
  let ans (i : ℕ) : Answer := if i=1 then pick stub 100 else { pick stub 100 with full := true }
  let r := stub.blkallocIndirect Blocks.kilo false ans 13 [0,0]
  have hroot : r.1.ptr [13]=50 := rfl
  have hptr : r.1.ptr [0,13]=100 := rfl
  have hfree : r.1.used 100=false := rfl
  have hc : ¬Clean Blocks.kilo stub r.1 := by
    intro hc
    rw [hc.referenced 100 (hreach hroot hptr)] at hfree
    cases hfree
  refine ⟨stub_wellFormed,r.1,?_,hroot,hptr,hfree,hreach hroot hptr,hc⟩
  exact blkalloc_indirect (f := stub) (by decide +kernel) (by decide +kernel) ht (by decide)

end Ext2fsX.Growth
