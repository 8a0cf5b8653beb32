import Ext2fsX.Growth.Reach

namespace Ext2fsX.Growth

open Framework
open Blocks (Geometry int32)

/-- Block `b` has been taken from the window, or has become used. -/
structure Taken (f f' : File) (b : ℕ) : Prop where
  pos : 0<b
  fresh : f.used b=false ∨ InWindow f b
  ptr : f'.ptr=f.ptr
  used : f'.used b=true
  window : ∀ x,InWindow f' x → f'.used x=true ∧ x≠b ∧ 0<x ∧ (f.used x=false ∨ InWindow f x)
  back : ∀ x,f'.used x=true → x=b ∨ InWindow f' x ∨ (f.used x=true ∧ ¬InWindow f x)
  kept : ∀ x,f.used x=true → ¬InWindow f x → f'.used x=true

structure Refused (f f' : File) : Prop where
  ptr : f'.ptr=f.ptr
  blocks : f'.blocks=f.blocks
  back : ∀ x,f'.used x=true → InWindow f' x ∨ (f.used x=true ∧ ¬InWindow f x)
  kept : ∀ x,f.used x=true → ¬InWindow f x → f'.used x=true

variable {f f' : File} {a : Answer} {b n : ℕ}

theorem Refused.refl (f : File) : Refused f f where
  ptr := rfl
  blocks := rfl
  back _ hx := or_iff_not_imp_left.mpr fun hn => ⟨hx,hn⟩
  kept _ hx _ := hx

theorem Taken.fresh_before (h : Taken f f' b) {x : ℕ} (hx : f'.used x=false ∨ InWindow f' x) :
    f.used x=false ∨ InWindow f x := by
  rcases hx with hx | hx
  · by_contra hn
    rw [not_or,Bool.not_eq_false] at hn
    rw [h.kept x hn.1 hn.2] at hx
    cases hx
  · exact (h.window x hx).2.2.2

theorem discardPrealloc_used (f : File) (x : ℕ) :
    f.discardPrealloc.used x=true ↔ f.used x=true ∧ ¬InWindow f x := by
  unfold File.discardPrealloc InWindow
  split
  · simp only [File.freeBlocks,Bool.and_eq_true,Bool.not_eq_true',Bool.and_eq_false_iff,
      decide_eq_false_iff_not]
    exact and_congr_right fun _ => by omega
  · next h =>
    constructor
    · exact fun hx => ⟨hx,by omega⟩
    · exact fun hx => hx.1

theorem discardPrealloc_free (f : File) (x : ℕ) :
    f.discardPrealloc.used x=false ↔ f.used x=false ∨ InWindow f x := by
  rw [← Bool.not_eq_true,discardPrealloc_used,not_and_or,not_not,Bool.not_eq_true]

theorem discardPrealloc_rest (f : File) :
    f.discardPrealloc.ptr=f.ptr ∧ f.discardPrealloc.blocks=f.blocks ∧
      f.discardPrealloc.preallocCount=0 := by
  unfold File.discardPrealloc
  split
  · exact ⟨rfl,rfl,rfl⟩
  · next h => exact ⟨rfl,rfl,not_not.mp h⟩

theorem noBlock_rest (f : File) (a : Answer) :
    (f.noBlock a).ptr=f.ptr ∧ (f.noBlock a).blocks=f.blocks ∧ (f.noBlock a).used=f.used := by
  unfold File.noBlock
  split <;> exact ⟨rfl,rfl,rfl⟩

structure Found (f f' : File) (b n : ℕ) : Prop where
  pos : b≠0
  free : ∀ x,b≤x → x≤b+n → f.used x=false
  ptr : f'.ptr=f.ptr
  blocks : f'.blocks=f.blocks
  used : ∀ x,f'.used x=true ↔ f.used x=true ∨ (b≤x ∧ x≤b+n)
  window : ∀ x,InWindow f' x ↔ b<x ∧ x≤b+n

theorem isFree_iff {b n : ℕ} (h : f.isFree b n=true) : b≠0 ∧ ∀ x,b≤x → x≤b+n → f.used x=false := by
  unfold File.isFree at h
  rw [Bool.and_eq_true,decide_eq_true_eq,List.all_eq_true] at h
  refine ⟨h.1,?_⟩
  intro x hbx hxn
  have hx := h.2 (x-b) (List.mem_range.mpr (by omega))
  rw [Nat.add_sub_cancel' hbx] at hx
  simpa using hx

theorem mark_used (f : File) (b n x : ℕ) :
    (f.mark b n).used x=true ↔ f.used x=true ∨ (b≤x ∧ x≤b+n) := by
  simp [File.mark]

theorem newBlock_cases (h0 : f.preallocCount=0) (a : Answer) :
    f.newBlock a=(f.noBlock a,0) ∨ ∃ b n,(f.newBlock a).2=b ∧ Found f (f.newBlock a).1 b n := by
  unfold File.newBlock
  cases a.grant with
  | none => exact .inl rfl
  | some x =>
    obtain ⟨b,n⟩ := x
    dsimp only
    split
    · split
      case isTrue hfree =>
        obtain ⟨hb,hall⟩ := isFree_iff hfree
        refine .inr ⟨b,n,rfl,hb,hall,rfl,rfl,mark_used f b n,?_⟩
        simp only [InWindow]
        omega
      case isFalse => exact .inl rfl
    · split
      case isTrue hfree =>
        obtain ⟨hb,hall⟩ := isFree_iff hfree
        refine .inr ⟨b,0,rfl,hb,hall,rfl,rfl,mark_used f b 0,?_⟩
        simp only [InWindow,File.mark,h0]
        omega
      case isFalse => exact .inl rfl

theorem Found.taken (h : Found f.discardPrealloc f' b n) : Taken f f' b where
  pos := Nat.pos_of_ne_zero h.pos
  fresh := (discardPrealloc_free f b).mp (h.free b le_rfl (Nat.le_add_right b n))
  ptr := h.ptr.trans (discardPrealloc_rest f).1
  used := (h.used b).mpr (.inr ⟨le_rfl,Nat.le_add_right b n⟩)
  window x hx := by
    obtain ⟨hbx,hxn⟩ := (h.window x).mp hx
    refine ⟨(h.used x).mpr (.inr ⟨hbx.le,hxn⟩),by omega,by omega,?_⟩
    exact (discardPrealloc_free f x).mp (h.free x hbx.le hxn)
  back x hx := by
    rcases (h.used x).mp hx with hx | hx
    · exact .inr (.inr ((discardPrealloc_used f x).mp hx))
    · by_cases he : x=b
      · exact .inl he
      · exact .inr (.inl ((h.window x).mpr ⟨by omega,hx.2⟩))
  kept x hx hn := (h.used x).mpr (.inl ((discardPrealloc_used f x).mpr ⟨hx,hn⟩))

section

variable (hw : ∀ x,InWindow f x → f.used x=true ∧ 0<x)

include hw

theorem takeBlock_cases (a : Answer) : (f.takeBlock a).2=0 ∧ Refused f (f.takeBlock a).1 ∨
      Taken f (f.takeBlock a).1 (f.takeBlock a).2 ∧ (f.takeBlock a).1.blocks=f.blocks := by
  unfold File.takeBlock
  by_cases hhit : f.preallocCount≠0 ∧ (a.bpref=f.preallocBlock ∨ a.bpref+1=f.preallocBlock)
  · rw [if_pos hhit]
    have hfirst : InWindow f f.preallocBlock := ⟨le_rfl,by omega⟩
    have hrest (x : ℕ) : InWindow { f with preallocBlock := f.preallocBlock+1
                                           preallocCount := f.preallocCount-1 } x ↔
        InWindow f x ∧ x≠f.preallocBlock := by
      simp only [InWindow]
      omega
    refine .inr ⟨⟨(hw _ hfirst).2,.inr hfirst,rfl,(hw _ hfirst).1,?_,?_,fun _ hx _ => hx⟩,rfl⟩
    · intro x hx
      obtain ⟨hx,hne⟩ := (hrest x).mp hx
      exact ⟨(hw x hx).1,hne,(hw x hx).2,.inr hx⟩
    intro x hx
    by_cases he : x=f.preallocBlock
    · exact .inl he
    · by_cases hin : InWindow f x
      · exact .inr (.inl ((hrest x).mpr ⟨hin,he⟩))
      · exact .inr (.inr ⟨hx,hin⟩)
  · rw [if_neg hhit]
    obtain ⟨hptr,hblocks,hcount⟩ := discardPrealloc_rest f
    rcases newBlock_cases hcount a with he | ⟨b,n,hb,hf⟩
    · obtain ⟨hptr',hblocks',hused'⟩ := noBlock_rest f.discardPrealloc a
      rw [he]
      refine .inl ⟨rfl,hptr'.trans hptr,hblocks'.trans hblocks,?_,?_⟩
      · intro x hx
        rw [hused'] at hx
        exact .inr ((discardPrealloc_used f x).mp hx)
      · intro x hx hn
        rw [hused']
        exact (discardPrealloc_used f x).mpr ⟨hx,hn⟩
    · rw [hb]
      exact .inr ⟨hf.taken,hf.blocks.trans hblocks⟩

theorem alloc_none (hb : Bounded f) {size : ℕ} (h : f.alloc a size=(f',none)) : Refused f f' := by
  unfold File.alloc at h
  split at h
  · cases h
    exact Refused.refl f
  dsimp only at h
  split at h
  · cases h
  case isFalse hn =>
    cases h
    rcases takeBlock_cases hw a with hr | ht
    · exact hr.2
    · exact absurd ⟨ht.1.pos,hb _ ht.1.fresh⟩ hn

theorem alloc_some {size b : ℕ} (h : f.alloc a size=(f',some b)) :
    Taken f f' b ∧ b<2^31 ∧ f'.blocks=int32 (f.blocks+btodb size) := by
  unfold File.alloc at h
  split at h
  · cases h
  dsimp only at h
  split at h
  case isTrue hpos =>
    obtain ⟨rfl,hbe⟩ := Prod.mk.inj h
    obtain rfl := Option.some.inj hbe
    rcases takeBlock_cases hw a with hr | ht
    · exact absurd hr.1 hpos.1.ne'
    · refine ⟨⟨ht.1.pos,ht.1.fresh,ht.1.ptr,ht.1.used,ht.1.window,ht.1.back,ht.1.kept⟩,hpos.2,?_⟩
      rw [ht.2]
  case isFalse => cases h

end

/-- Any block that is free, or in the window, can be what `ext2_alloc` gets. -/
theorem takeBlock_found (ha : a.bpref=f.preallocBlock+1) (hg : a.grant=some (b,0)) (hb : b≠0)
    (hfree : f.used b=false ∨ InWindow f b) :
    (f.takeBlock a).2=b ∧ Found f.discardPrealloc (f.takeBlock a).1 b 0 := by
  have hmiss : ¬(f.preallocCount≠0 ∧ (a.bpref=f.preallocBlock ∨ a.bpref+1=f.preallocBlock)) := by
    omega
  have hnot : f.discardPrealloc.used b=false := (discardPrealloc_free f b).mpr hfree
  have hok : f.discardPrealloc.isFree b 0=true := by
    simp [File.isFree,hb,hnot]
  have hcount := (discardPrealloc_rest f).2.2
  have hsecond : (f.discardPrealloc.newBlock a).2=b := by
    unfold File.newBlock
    rw [hg]
    dsimp only
    split <;> rfl
  rw [File.takeBlock,if_neg hmiss]
  refine ⟨hsecond,?_⟩
  unfold File.newBlock
  rw [hg]
  dsimp only
  obtain ⟨hpos,hall⟩ := isFree_iff hok
  split
  · refine ⟨hpos,hall,rfl,rfl,mark_used _ b 0,?_⟩
    simp only [InWindow]
    omega
  · refine ⟨hpos,hall,rfl,rfl,mark_used _ b 0,?_⟩
    simp only [InWindow,File.mark,hcount]
    omega

def SameWindow (s : Blocks.State) (f : File) : Prop :=
  s.preallocBlock=f.preallocBlock ∧ s.preallocCount=f.preallocCount

/-- `ext2_alloc` takes the same block here and in `Blocks`, if `ext2_new_block` answers the same. -/
theorem takeBlock_blocks {s : Blocks.State} {env : Blocks.Env} (hs : SameWindow s f)
    (hkind : env.regular=f.regular) (hjunk : env.junk=a.junk)
    (hnew : env.newBlock s.clock=a.grant.map fun x => ⟨x.1,x.1+1,x.2⟩)
    (hfree : ∀ x∈a.grant,f.discardPrealloc.isFree x.1 (if f.regular then x.2 else 0)) :
    SameWindow (s.takeBlock env a.bpref).1 (f.takeBlock a).1 ∧
      (s.takeBlock env a.bpref).2=(f.takeBlock a).2 := by
  obtain ⟨hwindow,hclock,hregular⟩ : SameWindow s.discardPrealloc f.discardPrealloc ∧
      s.discardPrealloc.clock=s.clock ∧ f.discardPrealloc.regular=f.regular := by
    unfold Blocks.State.discardPrealloc File.discardPrealloc
    rw [hs.2]
    split
    · exact ⟨⟨hs.1,rfl⟩,rfl,rfl⟩
    · exact ⟨hs,rfl,rfl⟩
  unfold Blocks.State.takeBlock File.takeBlock
  rw [hs.1,hs.2]
  by_cases hhit : f.preallocCount≠0 ∧ (a.bpref=f.preallocBlock ∨ a.bpref+1=f.preallocBlock)
  · rw [if_pos (by omega),if_pos hhit]
    exact ⟨⟨rfl,rfl⟩,rfl⟩
  rw [if_neg (by omega),if_neg hhit,File.newBlock,File.noBlock,hregular]
  dsimp only
  rw [hclock,hnew,hkind,hjunk]
  cases hg : a.grant with
  | none => cases f.regular with
    | false => exact ⟨hwindow,rfl⟩
    | true => exact ⟨⟨rfl,rfl⟩,rfl⟩
  | some x =>
    have hx := hfree x hg
    cases hr : f.regular with
    | false =>
      rw [hr,if_neg nofun] at hx
      simp only [Option.map,hx,if_true]
      exact ⟨hwindow,rfl⟩
    | true =>
      rw [hr,if_pos rfl] at hx
      simp only [Option.map,hx,if_true]
      exact ⟨⟨rfl,rfl⟩,trivial⟩

/-- The answer with which `ext2_alloc` comes to block `b`. -/
def pick (f : File) (b : ℕ) : Answer where
  full := false
  bpref := f.preallocBlock+1
  grant := some (b,0)
  junk := (0,0)
  read := true
  write := true
  link := true
  data := true
  device _ := 0

theorem alloc_large (hfull : a.full=false) (ha : a.bpref=f.preallocBlock+1)
    (hg : a.grant=some (b,0)) (hb : 2^31≤b) (hfree : f.used b=false ∨ InWindow f b) :
    ∃ f1,(∀ size,f.alloc a size=(f1,none)) ∧ f1.ptr=f.ptr ∧ f1.used b=true ∧ ¬InWindow f1 b := by
  obtain ⟨hsnd,hfound⟩ := takeBlock_found ha hg (by omega) hfree
  refine ⟨(f.takeBlock a).1,?_,hfound.taken.ptr,hfound.taken.used,?_⟩
  · intro size
    rw [File.alloc,if_neg (by simp [hfull])]
    dsimp only
    rw [hsnd,if_neg (by omega)]
  · rw [hfound.window]
    omega

theorem alloc_small (hfull : a.full=false) (ha : a.bpref=f.preallocBlock+1)
    (hg : a.grant=some (b,0)) (hb : b≠0) (hlt : b<2^31) (hfree : f.used b=false ∨ InWindow f b)
    (size : ℕ) :
    ∃ f1,f.alloc a size=(f1,some b) ∧ f1.ptr=f.ptr ∧ f1.used b=true ∧ (∀ x,¬InWindow f1 x) ∧
      f1.blocks=int32 (f.blocks+btodb size) := by
  obtain ⟨hsnd,hfound⟩ := takeBlock_found ha hg hb hfree
  refine ⟨{ (f.takeBlock a).1 with blocks := int32 ((f.takeBlock a).1.blocks+btodb size) },?_,
    hfound.taken.ptr,hfound.taken.used,?_,?_⟩
  · rw [File.alloc,if_neg (by simp [hfull])]
    dsimp only
    rw [hsnd,if_pos ⟨Nat.pos_of_ne_zero hb,hlt⟩]
  · intro x hx
    have := (hfound.window x).mp hx
    omega
  · rw [hfound.blocks,(discardPrealloc_rest f).2.1]

end Ext2fsX.Growth
