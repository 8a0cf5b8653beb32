import Mathlib.Data.List.Perm.Basic
import Mathlib.Order.Basic

namespace Ext2fsX.Framework

variable {α : Type*} (key : α → ℕ)

/-- From the end: each element is exchanged with the one `k+1` places behind it if that has the
smaller key. The flag: something was exchanged. -/
def gapPass (k : ℕ) : List α → List α × Bool
  | [] => ([],false)
  | a::l =>
    let r := gapPass k l
    match r.1[k]? with
    | some b => if key b<key a then (b::r.1.set k a,true) else (a::r.1,r.2)
    | none => (a::r.1,r.2)

def nextGap (count : ℕ) : ℕ :=
  let c := count*10/13
  if c=9 ∨ c=10 then 11 else c

/-- Each gap is smaller than the one before, so the first bounds the number of passes. -/
def combLoop : ℕ → ℕ → List α → List α
  | 0,_,l => l
  | n+1,count,l =>
    if 2 < count then combLoop n (nextGap count) (gapPass key (nextGap count-1) l).1 else l

/-- Passes between neighbours, up to one that exchanges nothing. -/
def bubble : ℕ → List α → List α
  | 0,l => l
  | n+1,l =>
    let r := gapPass key 0 l
    if r.2 then bubble n r.1 else r.1

def combSort (l : List α) : List α := bubble key (l.length+1) (combLoop key l.length l.length l)

variable {key} {l : List α}

theorem set_perm {k : ℕ} {b : α} (h : l[k]?=some b) (a : α) : (b::l.set k a).Perm (a::l) := by
  induction l generalizing k with
  | nil => simp at h
  | cons c l ih =>
    cases k with
    | zero =>
      obtain rfl : c=b := by simpa using h
      exact List.Perm.swap a c l
    | succ k =>
      have hi := @ih k (by simpa using h)
      calc
        (b::c::l.set k a).Perm (c::b::l.set k a) := List.Perm.swap c b _
        _ |>.Perm (c::a::l) := hi.cons c
        _ |>.Perm (a::c::l) := List.Perm.swap a c l

theorem gapPass_perm (k : ℕ) (l : List α) : (gapPass key k l).1.Perm l := by
  induction l with
  | nil => exact List.Perm.refl []
  | cons a l ih =>
    unfold gapPass
    dsimp only
    cases hb : (gapPass key k l).1[k]? with
    | none => exact ih.cons a
    | some b =>
      dsimp only
      split
      · exact (set_perm hb a).trans (ih.cons a)
      · exact ih.cons a

theorem combLoop_perm (n count : ℕ) (l : List α) : (combLoop key n count l).Perm l := by
  induction n generalizing count l with
  | zero => exact List.Perm.refl l
  | succ n ih =>
    unfold combLoop
    split
    · exact (ih _ _).trans (gapPass_perm _ l)
    · exact List.Perm.refl l

theorem bubble_perm (n : ℕ) (l : List α) : (bubble key n l).Perm l := by
  induction n generalizing l with
  | zero => exact List.Perm.refl l
  | succ n ih =>
    unfold bubble
    dsimp only
    split
    · exact (ih _).trans (gapPass_perm 0 l)
    · exact gapPass_perm 0 l

theorem combSort_perm (l : List α) : (combSort key l).Perm l :=
  (bubble_perm _ _).trans (combLoop_perm _ _ l)

section Map

variable {β : Type*} (key : β → ℕ) (f : α → β)

theorem gapPass_map (k : ℕ) (l : List α) : gapPass key k (l.map f)=
      ((gapPass (fun a => key (f a)) k l).1.map f,(gapPass (fun a => key (f a)) k l).2) := by
  induction l with
  | nil => rfl
  | cons a l ih =>
    rw [List.map_cons,gapPass,gapPass,ih]
    rw [List.getElem?_map]
    cases (gapPass (fun a => key (f a)) k l).1[k]? with
    | none => rfl
    | some b =>
      dsimp only [Option.map_some]
      split
      · rw [List.map_cons,List.map_set]
      · rfl

theorem combLoop_map (n count : ℕ) (l : List α) :
    combLoop key n count (l.map f)=(combLoop (fun a => key (f a)) n count l).map f := by
  induction n generalizing count l with
  | zero => rfl
  | succ n ih =>
    rw [combLoop,combLoop]
    split
    · rw [gapPass_map,ih]
    · rfl

theorem bubble_map (n : ℕ) (l : List α) :
    bubble key n (l.map f)=(bubble (fun a => key (f a)) n l).map f := by
  induction n generalizing l with
  | zero => rfl
  | succ n ih =>
    rw [bubble,bubble,gapPass_map]
    split
    · exact ih _
    · rfl

/-- Sorting images by a key is sorting what they are images of. -/
theorem combSort_map (l : List α) :
    combSort key (l.map f)=(combSort (fun a => key (f a)) l).map f := by
  unfold combSort
  rw [List.length_map,combLoop_map,bubble_map]

end Map

/-- A pass between neighbours that meets nothing smaller than `a` behind `a` leaves it there. -/
theorem gapPass_cons_of_le {a : α} (h : ∀ x∈l,key a≤key x) :
    gapPass key 0 (a::l)=(a::(gapPass key 0 l).1,(gapPass key 0 l).2) := by
  rw [gapPass]
  cases hb : (gapPass key 0 l).1[0]? with
  | none => rfl
  | some b =>
    have hmem : b∈l := (gapPass_perm 0 l).mem_iff.mp (List.mem_of_getElem? hb)
    exact if_neg (Nat.not_lt.mpr (h b hmem))

/-- A pass between neighbours brings a smallest element to the front. -/
theorem gapPass_min (h : l≠[]) : ∃ m t,(gapPass key 0 l).1=m::t ∧ ∀ x∈t,key m≤key x := by
  induction l with
  | nil => exact absurd rfl h
  | cons a l ih =>
    by_cases hl : l=[]
    · subst hl
      exact ⟨a,[],rfl,nofun⟩
    obtain ⟨m,t,hm,hle⟩ := ih hl
    rw [gapPass]
    rw [hm]
    change ∃ m' t',(if key m<key a then (m::a::t,true) else (a::m::t,(gapPass key 0 l).2)).1=
      m'::t' ∧ ∀ x∈t',key m'≤key x
    by_cases hlt : key m<key a
    · rw [if_pos hlt]
      refine ⟨m,a::t,rfl,?_⟩
      intro x hx
      rcases List.mem_cons.mp hx with rfl | hx
      · exact Nat.le_of_lt hlt
      · exact hle x hx
    · rw [if_neg hlt]
      refine ⟨a,m::t,rfl,?_⟩
      intro x hx
      rcases List.mem_cons.mp hx with rfl | hx
      · exact Nat.not_lt.mp hlt
      · exact Nat.le_trans (Nat.not_lt.mp hlt) (hle x hx)

/-- A pass that exchanges nothing has found the list in order. -/
theorem gapPass_sorted (h : (gapPass key 0 l).2=false) :
    (gapPass key 0 l).1=l ∧ l.Pairwise (fun x y => key x≤key y) := by
  induction l with
  | nil => exact ⟨rfl,List.Pairwise.nil⟩
  | cons a l ih =>
    rw [gapPass] at h ⊢
    cases hb : (gapPass key 0 l).1[0]? with
    | none =>
      rw [hb] at h
      obtain ⟨he,hs⟩ := ih h
      rw [he] at hb ⊢
      have hl : l=[] := by simpa using hb
      subst hl
      exact ⟨rfl,List.pairwise_singleton _ a⟩
    | some b =>
      rw [hb] at h
      by_cases hlt : key b<key a
      · simp [hlt] at h
      dsimp only at h ⊢
      rw [if_neg hlt] at h ⊢
      obtain ⟨he,hs⟩ := ih h
      rw [he] at hb ⊢
      obtain ⟨t,rfl⟩ : ∃ t,l=b::t := by
        cases l with
        | nil => simp at hb
        | cons c t =>
          obtain rfl : c=b := by simpa using hb
          exact ⟨t,rfl⟩
      refine ⟨rfl,List.pairwise_cons.mpr ⟨?_,hs⟩⟩
      intro x hx
      rcases List.mem_cons.mp hx with rfl | hx
      · exact Nat.not_lt.mp hlt
      · exact Nat.le_trans (Nat.not_lt.mp hlt) ((List.pairwise_cons.mp hs).1 x hx)

variable (key) in
/-- A pass between neighbours that exchanges nothing comes within `n` passes. -/
def Settles : ℕ → List α → Prop
  | 0,_ => False
  | n+1,l => (gapPass key 0 l).2=false ∨ Settles n (gapPass key 0 l).1

theorem Settles.cons_of_le {n : ℕ} {m : α} {t : List α} (hs : Settles key n t)
    (h : ∀ x∈t,key m≤key x) : Settles key n (m::t) := by
  induction n generalizing t with
  | zero => exact hs
  | succ n ih =>
    rw [Settles,gapPass_cons_of_le h]
    refine hs.imp_right (fun hs => ih hs ?_)
    exact fun x hx => h x ((gapPass_perm 0 t).mem_iff.mp hx)

theorem settles_of_length_lt {n : ℕ} (h : l.length<n) : Settles key n l := by
  induction n generalizing l with
  | zero => exact absurd h (Nat.not_lt_zero _)
  | succ n ih =>
    by_cases hl : l=[]
    · subst hl
      exact .inl rfl
    obtain ⟨m,t,hm,hle⟩ := @gapPass_min α key l hl
    have hlen := (@gapPass_perm α key 0 l).length_eq
    rw [hm,List.length_cons] at hlen
    refine .inr ?_
    rw [hm]
    exact (@ih t (by omega)).cons_of_le hle

theorem Settles.bubble_sorted {n : ℕ} (h : Settles key n l) :
    (bubble key n l).Pairwise (fun x y => key x≤key y) := by
  induction n generalizing l with
  | zero => exact h.elim
  | succ n ih =>
    rw [bubble]
    split
    case isTrue hmore => exact ih (h.resolve_left (by simp [hmore]))
    case isFalse hmore =>
      obtain ⟨he,hs⟩ := gapPass_sorted (Bool.eq_false_iff.mpr hmore)
      rw [he]
      exact hs

theorem combSort_sorted (l : List α) : (combSort key l).Pairwise (fun x y => key x≤key y) :=
  (settles_of_length_lt (by rw [(combLoop_perm _ _ l).length_eq]; omega)).bubble_sorted

/-- Nothing is exchanged over a gap that is not there. -/
theorem gapPass_short {k : ℕ} (h : l.length≤k+1) : gapPass key k l=(l,false) := by
  induction l with
  | nil => rfl
  | cons a l ih =>
    have hl : l.length≤k := Nat.le_of_succ_le_succ h
    rw [gapPass,ih (Nat.le_succ_of_le hl),List.getElem?_eq_none hl]

end Ext2fsX.Framework
