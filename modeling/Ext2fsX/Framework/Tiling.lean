import Mathlib.Algebra.BigOperators.Group.List.Basic
import Mathlib.Algebra.Ring.Nat

namespace Ext2fsX.Framework

variable {ρ : Type*} (len : ρ → ℕ) (rd rd' : ℕ → ρ) (ok : ℕ → ρ → Prop)

def total (rs : List ρ) : ℕ := (rs.map len).sum

/-- The records `rs` stand one after the other from `o` on, each acceptable at its place. -/
def Tiles : ℕ → List ρ → Prop
  | _,[] => True
  | o,r::rs => rd o=r ∧ ok o r ∧ Tiles (o+len r) rs

instance Tiles.decidable [DecidableEq ρ] [∀ o r,Decidable (ok o r)] :
    (o : ℕ) → (rs : List ρ) → Decidable (Tiles len rd ok o rs)
  | _,[] => .isTrue trivial
  | o,r::rs =>
    have := Tiles.decidable (o+len r) rs
    inferInstanceAs (Decidable (rd o=r ∧ ok o r ∧ Tiles len rd ok (o+len r) rs))

def walk (stop : ℕ) : ℕ → ℕ → List ρ
  | 0,_ => []
  | fuel+1,o => if o < stop then rd o::walk stop fuel (o+len (rd o)) else []

/-- The records that make up the first `k` units, and the others. -/
def cut : ℕ → List ρ → Option (List ρ × List ρ)
  | 0,rs => some ([],rs)
  | _+1,[] => none
  | k+1,r::rs =>
    if len r≤k+1 then (cut (k+1-len r) rs).map (fun p => (r::p.1,p.2)) else none

def spots : ℕ → List ρ → List (ℕ × ρ)
  | _,[] => []
  | o,r::rs => (o,r)::spots (o+len r) rs

/-- The place of the last of the records `rs` from `o` on, and `p` where there is none. -/
def lastSpot : ℕ → ℕ → List ρ → ℕ
  | p,_,[] => p
  | _,o,r::rs => lastSpot o (o+len r) rs

variable {len rd rd' ok}

@[simp] theorem total_nil : total len []=0 := rfl

@[simp] theorem total_cons (r : ρ) (rs : List ρ) : total len (r::rs)=len r+total len rs := by
  simp [total]

@[simp] theorem total_append (rs qs : List ρ) : total len (rs++qs)=total len rs+total len qs := by
  simp [total]

variable {rs : List ρ}

theorem total_mem_le {r : ρ} (h : r∈rs) : len r≤total len rs := by
  induction rs with
  | nil => cases h
  | cons q rs ih =>
    rw [total_cons]
    rcases List.mem_cons.mp h with rfl | h
    · omega
    · have := ih h
      omega

theorem tiles_append (o : ℕ) (rs qs : List ρ) :
    Tiles len rd ok o (rs++qs) ↔ Tiles len rd ok o rs ∧ Tiles len rd ok (o+total len rs) qs := by
  induction rs generalizing o with
  | nil => simp [Tiles]
  | cons r rs ih =>
    simp only [List.cons_append,Tiles,total_cons,ih,and_assoc,Nat.add_assoc]

variable {o : ℕ}

section

variable (h : Tiles len rd ok o rs)

include h

theorem Tiles.congr (he : ∀ p r,o≤p → p+len r≤o+total len rs → rd p=r → ok p r → rd' p=r) :
    Tiles len rd' ok o rs := by
  induction rs generalizing o with
  | nil => trivial
  | cons r rs ih =>
    obtain ⟨h1,h2,h3⟩ := h
    rw [total_cons] at he
    refine ⟨he o r (Nat.le_refl o) (by omega) h1 h2,h2,?_⟩
    apply ih h3
    intro p q hp hq
    exact he p q (by omega) (by omega)

variable {ok' : ℕ → ρ → Prop}

theorem Tiles.imp (he : ∀ p,ok p (rd p) → ok' p (rd p)) : Tiles len rd ok' o rs := by
  induction rs generalizing o with
  | nil => trivial
  | cons r rs ih =>
    obtain ⟨rfl,h2,h3⟩ := h
    exact ⟨rfl,he o h2,ih h3⟩

theorem Tiles.weaken (he : ∀ p r,ok p r → ok' p r) : Tiles len rd ok' o rs :=
  h.imp (fun p => he p (rd p))

end

theorem Tiles.walk (hpos : ∀ o r,ok o r → 0<len r) {o fuel stop : ℕ} (h : Tiles len rd ok o rs)
    (hs : o+total len rs=stop) (hf : rs.length≤fuel) :
    walk len rd stop fuel o=rs := by
  induction rs generalizing o fuel with
  | nil =>
    have hle : ¬o < stop := by simp at hs; omega
    cases fuel with
    | zero => rfl
    | succ fuel => simp [Framework.walk,hle]
  | cons r rs ih =>
    obtain ⟨h1,h2,h3⟩ := h
    rw [total_cons] at hs
    have hlt : o < stop := by
      have := hpos o r h2
      omega
    cases fuel with
    | zero => simp at hf
    | succ fuel =>
      simp only [Framework.walk,hlt,if_true,h1]
      rw [ih h3 (by omega) (by simpa using hf)]

theorem Tiles.length_le (hpos : ∀ o r,ok o r → 0<len r) (h : Tiles len rd ok o rs) : rs.length≤total len rs := by
  induction rs generalizing o with
  | nil => simp
  | cons r rs ih =>
    have h1 := hpos o r h.2.1
    have h2 := ih h.2.2
    simp only [List.length_cons,total_cons]
    omega

theorem cut_eq_some {k : ℕ} {rs xs ys : List ρ} (h : cut len k rs=some (xs,ys)) :
    rs=xs++ys ∧ total len xs=k := by
  induction rs generalizing k xs with
  | nil =>
    cases k with
    | zero =>
      obtain ⟨rfl,rfl⟩ : []=xs ∧ []=ys := by simpa [cut] using h
      exact ⟨rfl,rfl⟩
    | succ k => simp [cut] at h
  | cons r rs ih =>
    cases k with
    | zero =>
      obtain ⟨rfl,rfl⟩ : []=xs ∧ r::rs=ys := by simpa [cut] using h
      exact ⟨rfl,rfl⟩
    | succ k =>
      simp only [cut] at h
      split at h
      · rename_i hle
        obtain ⟨⟨zs,ws⟩,hz,he⟩ := Option.map_eq_some_iff.mp h
        obtain ⟨rfl,rfl⟩ : r::zs=xs ∧ ws=ys := by simpa using he
        obtain ⟨rfl,ht⟩ := ih hz
        exact ⟨rfl,by rw [total_cons,ht]; omega⟩
      · cases h

/-- Records that do not cross a multiple of `n` leave a cut at each of them. -/
theorem Tiles.split {n o e : ℕ} (h : Tiles len rd ok o rs) (hfit : ∀ p r,ok p r → p%n+len r≤n)
    (hn : n ∣ e) (ho : o≤e) (he : e≤o+total len rs) :
    ∃ xs ys,rs=xs++ys ∧ o+total len xs=e := by
  induction rs generalizing o with
  | nil => exact ⟨[],[],rfl,by simp at he ⊢; omega⟩
  | cons r rs ih =>
    by_cases hoe : o=e
    · exact ⟨[],r::rs,rfl,by simpa using hoe⟩
    have hf := hfit o r h.2.1
    have hle : o+len r≤e := by
      -- `e` is a multiple of `n` beyond `o`, so the record ends before it
      obtain ⟨c,rfl⟩ := hn
      have hdiv := Nat.div_add_mod o n
      have hlt : o/n < c := by
        by_contra hge
        have := Nat.mul_le_mul_left n (Nat.le_of_not_lt hge)
        omega
      have := Nat.mul_le_mul_left n hlt
      rw [Nat.mul_succ] at this
      omega
    rw [total_cons] at he
    obtain ⟨xs,ys,rfl,ht⟩ := ih h.2.2 hle (by omega)
    exact ⟨r::xs,ys,rfl,by rw [total_cons]; omega⟩

theorem tiles_iff (o : ℕ) (rs : List ρ) :
    Tiles len rd ok o rs ↔ ∀ x∈spots len o rs,rd x.1=x.2 ∧ ok x.1 x.2 := by
  induction rs generalizing o with
  | nil => simp [Tiles,spots]
  | cons r rs ih => simp only [Tiles,spots,List.forall_mem_cons,ih,and_assoc]

theorem spots_bounds {x : ℕ × ρ} (h : x∈spots len o rs) : o≤x.1 ∧ x.1+len x.2≤o+total len rs := by
  induction rs generalizing o with
  | nil => cases h
  | cons r rs ih =>
    rw [total_cons]
    rcases List.mem_cons.mp h with rfl | h
    · exact ⟨Nat.le_refl _,by dsimp only; omega⟩
    · have := ih h
      omega

/-- Each record ends before the next ones start. -/
theorem spots_pairwise (o : ℕ) (rs : List ρ) :
    (spots len o rs).Pairwise (fun x y => x.1+len x.2≤y.1) := by
  induction rs generalizing o with
  | nil => exact List.Pairwise.nil
  | cons r rs ih => exact List.pairwise_cons.mpr ⟨fun y hy => (spots_bounds hy).1,ih _⟩

theorem spots_apart {x y : ℕ × ρ} (hx : x∈spots len o rs) (hy : y∈spots len o rs) : x=y ∨ x.1+len x.2≤y.1 ∨ y.1+len y.2≤x.1 := by
  induction rs generalizing o with
  | nil => cases hx
  | cons r rs ih =>
    rcases List.mem_cons.mp hx with rfl | hx' <;> rcases List.mem_cons.mp hy with rfl | hy'
    · exact .inl rfl
    · exact .inr (.inl (spots_bounds hy').1)
    · exact .inr (.inr (spots_bounds hx').1)
    · exact ih hx' hy'

@[simp] theorem spots_map_snd (o : ℕ) (rs : List ρ) : (spots len o rs).map Prod.snd=rs := by
  induction rs generalizing o with
  | nil => rfl
  | cons r rs ih => simp [spots,ih]

theorem mem_of_mem_spots {x : ℕ × ρ} (h : x∈spots len o rs) : x.2∈rs := by
  have hm : x.2∈(spots len o rs).map Prod.snd := List.mem_map_of_mem h
  rwa [spots_map_snd] at hm

theorem spots_map (f : ℕ × ρ → ρ) (hf : ∀ x,len (f x)=len x.2) (o : ℕ) (rs : List ρ) :
    spots len o ((spots len o rs).map f)=(spots len o rs).map (fun x => (x.1,f x)) := by
  induction rs generalizing o with
  | nil => rfl
  | cons r rs ih => simp [spots,hf,ih]

theorem lastSpot_concat (p o : ℕ) (rs : List ρ) (r : ρ) :
    lastSpot len p o (rs++[r])=o+total len rs := by
  induction rs generalizing p o with
  | nil => rfl
  | cons q rs ih => rw [List.cons_append,lastSpot,ih,total_cons,Nat.add_assoc]

end Ext2fsX.Framework
