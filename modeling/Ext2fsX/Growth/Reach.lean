import Ext2fsX.Growth.Calls
import Mathlib.Data.Set.Card
import Mathlib.Data.Set.Finite.List

namespace Ext2fsX.Growth

open Framework
open Alloc (Slot target level level_cons level_closed)
open Blocks (Geometry Errno Stop Panic int32)

variable (g : Geometry) (f : File)

def Reached (b : ℕ) : Prop :=
  ∃ p,(level g p).isSome ∧ Live f.ptr p ∧ f.ptr p=b

def InWindow (b : ℕ) : Prop :=
  f.preallocBlock≤b ∧ b < f.preallocBlock+f.preallocCount

/-- The value that `i_blocks` is to have: the sectors of all blocks that can be reached. -/
noncomputable def sectors : ℤ :=
  int32 ((Set.ncard {b | Reached g f b}*btodb g.blocksize : ℕ) : ℤ)

structure WellFormed : Prop where
  reached : ∀ b,Reached g f b → f.used b=true
  window : ∀ b,InWindow f b → f.used b=true ∧ ¬Reached g f b ∧ 0<b
  blocks : f.blocks=sectors g f

def Foreign (b : ℕ) : Prop :=
  f.used b=true ∧ ¬Reached g f b ∧ ¬InWindow f b

/-- `i_blocks` is right, no block of the file's own is lost, and no pointer names a free block. -/
structure Clean (f f' : File) : Prop where
  balanced : f'.blocks=sectors g f'
  accounted : ∀ b,f'.used b=true → Reached g f' b ∨ InWindow f' b ∨ Foreign g f b
  referenced : ∀ b,Reached g f' b → f'.used b=true

def Bounded : Prop := ∀ b,f.used b=false ∨ InWindow f b → b<2^31

def NoBlock : Prop := ∀ b,b≠0 → ¬(f.used b=false ∨ InWindow f b)

def dataSlot (k : ℕ) (offs : List ℕ) : Slot := offs.reverse++[k]

theorem level_length {g : Geometry} {p : Slot} {n : ℕ} (h : level g p=some n) :
    p.length+n≤4 ∧ ∀ o∈p,o<15+g.nindir := by
  induction p generalizing n with
  | nil => simp [level] at h
  | cons o q ih =>
    cases q with
    | nil =>
      rw [level] at h
      split at h
      · obtain rfl := Option.some.inj h
        simp only [List.length_singleton,List.mem_singleton,forall_eq]
        omega
      · cases h
    | cons o' q =>
      obtain ⟨hq,ho⟩ := level_cons.mp h
      obtain ⟨hlen,hall⟩ := ih hq
      rw [List.length_cons]
      refine ⟨by omega,?_⟩
      intro x hx
      rcases List.mem_cons.mp hx with rfl | hx
      · omega
      · exact hall x hx

theorem level_path {g : Geometry} {n : ℕ} (l : List ℕ) (p : Slot) (hp : level g p=some (l.length+n))
    (hl : ∀ o∈l,o<g.nindir) : level g (l.reverse++p)=some n := by
  induction l generalizing p with
  | nil =>
    rw [List.length_nil,Nat.zero_add] at hp
    exact hp
  | cons o l ih =>
    rw [List.reverse_cons,List.append_assoc]
    apply ih (o::p)
    · cases p with
      | nil => exact absurd rfl (Alloc.level_ne_nil hp)
      | cons i q =>
        rw [List.length_cons,Nat.add_right_comm] at hp
        exact level_cons.mpr ⟨hp,hl o List.mem_cons_self⟩
    · exact fun x hx => hl x (List.mem_cons_of_mem o hx)

theorem slots_finite : {p : Slot | (level g p).isSome}.Finite := by
  apply ((List.finite_length_le (Fin (15+g.nindir)) 4).image (List.map Fin.val)).subset
  intro p hp
  obtain ⟨n,hn⟩ := Option.isSome_iff_exists.mp hp
  obtain ⟨hlen,hall⟩ := level_length hn
  refine ⟨p.pmap (fun x hx => ⟨x,hx⟩) hall,?_,?_⟩
  · change (p.pmap _ hall).length≤4
    rw [List.length_pmap]
    omega
  · simp [List.map_pmap]

variable {g : Geometry} {f f' : File}

theorem reached_finite (g : Geometry) (f : File) : {b | Reached g f b}.Finite := by
  apply ((slots_finite g).image f.ptr).subset
  rintro b ⟨p,hp,-,rfl⟩
  exact ⟨p,hp,rfl⟩

theorem reached_congr (h : f'.ptr=f.ptr) (b : ℕ) : Reached g f' b ↔ Reached g f b := by
  simp only [Reached,h]

theorem sectors_congr (h : ∀ b,Reached g f' b ↔ Reached g f b) : sectors g f'=sectors g f := by
  have hset : {b | Reached g f' b}={b | Reached g f b} := Set.ext h
  rw [sectors,sectors,hset]

theorem sectors_insert {b : ℕ} (hb : ¬Reached g f b) (h : ∀ x,Reached g f' x ↔ Reached g f x ∨ x=b) :
    sectors g f'=int32 (sectors g f+btodb g.blocksize) := by
  have hset : {x | Reached g f' x}=insert b {x | Reached g f x} := by
    ext x
    exact (h x).trans or_comm
  have hcard : Set.ncard (insert b {x | Reached g f x})=Set.ncard {x | Reached g f x}+1 :=
    Set.ncard_insert_of_notMem hb (reached_finite g f)
  rw [sectors,hset,hcard,sectors]
  simp only [int32]
  rw [Int.bmod_add_bmod,Nat.succ_mul]
  rfl

theorem sectors_int32 (g : Geometry) (f : File) : int32 (sectors g f)=sectors g f := by
  rw [sectors,int32,int32,Int.bmod_bmod]

variable {o : ℕ} {q : Slot}

theorem reached_store {b : ℕ} (hlevel : (level g (o::q)).isSome)
    (hq : Live f.ptr q) (h0 : f.ptr (o::q)=0) (hb : b≠0)
    (hunder : ∀ o',(level g (o'::o::q)).isSome → f.ptr (o'::o::q)=0) (x : ℕ) :
    Reached g (f.store (o::q) b) x ↔ Reached g f x ∨ x=b := by
  have hlive {r : Slot} (hr : (level g r).isSome) :
      Live (Function.update f.ptr (o::q) b) r ↔ Live f.ptr r ∨ r=o::q :=
    Live.update_iff (V := fun r => (level g r).isSome) level_closed hq h0 hb hunder hr
  constructor
  · rintro ⟨r,hr,hl,rfl⟩
    by_cases he : r=o::q
    · subst he
      exact .inr (Function.update_self ..)
    · refine .inl ⟨r,hr,((hlive hr).mp hl).resolve_right he,?_⟩
      exact (Function.update_of_ne he ..).symm
  · rintro (⟨r,hr,hl,rfl⟩ | rfl)
    · have hne : r≠o::q := by
        rintro rfl
        exact hl.1 h0
      exact ⟨r,hr,(hlive hr).mpr (.inl hl),Function.update_of_ne hne ..⟩
    · exact ⟨o::q,hlevel,(hlive hlevel).mpr (.inr rfl),Function.update_self ..⟩

theorem no_slots_under {o' : ℕ} (h : level g (o::q)=some 0) : ¬(level g (o'::o::q)).isSome := by
  intro hs
  obtain ⟨n,hn⟩ := Option.isSome_iff_exists.mp hs
  rw [(level_cons.mp hn).1] at h
  cases h

theorem reached_clear (h0 : f.ptr (o::q)=0) (x : ℕ) :
    Reached g (f.clear (o::q)) x ↔ Reached g f x := by
  have hsame {r : Slot} (hr : Live f.ptr r) : clearUnder f.ptr (o::q) r=f.ptr r := by
    cases r with
    | nil => rfl
    | cons i p =>
      have hne : p≠o::q := by
        rintro rfl
        exact hr.2.1 h0
      exact if_neg hne
  constructor
  · rintro ⟨r,hr,hl,rfl⟩
    have hlive := (Live.clearUnder_iff h0 r).mp hl
    exact ⟨r,hr,hlive,(hsame hlive).symm⟩
  · rintro ⟨r,hr,hl,rfl⟩
    exact ⟨r,hr,(Live.clearUnder_iff h0 r).mpr hl,hsame hl⟩

theorem clear_self (f : File) (o : ℕ) (q : Slot) : (f.clear (o::q)).ptr (o::q)=f.ptr (o::q) :=
  if_neg fun h => List.cons_ne_self o q h.symm

theorem clear_under (f : File) (o o' : ℕ) (q : Slot) : (f.clear (o::q)).ptr (o'::o::q)=0 := if_pos rfl

theorem live_suffix {ptr : Slot → ℕ} (l q : Slot) (h : Live ptr (l++q)) : Live ptr q := by
  induction l with
  | nil => exact h
  | cons o l ih => exact ih h.2

theorem first_gap {ptr : Slot → ℕ} {rest : List ℕ} {p : Slot} (hp : Live ptr p)
    (h : ¬Live ptr (rest.reverse++p)) :
    ∃ pre o post,rest=pre++o::post ∧ Live ptr (pre.reverse++p) ∧ ptr (o::(pre.reverse++p))=0 := by
  induction rest generalizing p with
  | nil => exact absurd hp h
  | cons o rest ih =>
    by_cases h0 : ptr (o::p)=0
    · exact ⟨[],o,rest,rfl,hp,h0⟩
    rw [List.reverse_cons,List.append_assoc] at h
    obtain ⟨pre,o',post,rfl,hl,hz⟩ := ih (p := o::p) ⟨h0,hp⟩ h
    refine ⟨o::pre,o',post,rfl,?_⟩
    rw [List.reverse_cons,List.append_assoc]
    exact ⟨hl,hz⟩

end Ext2fsX.Growth
