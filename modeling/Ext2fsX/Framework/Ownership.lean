import Mathlib.Data.Nat.Notation

namespace Ext2fsX.Framework

variable {η α : Type*}

/-- The things in use are those that somebody holds, and nobody else holds them too. -/
structure Owned (holds : η → α → Prop) (used : α → Prop) : Prop where
  covered : ∀ x,used x ↔ ∃ h,holds h x
  sole : ∀ h k x,holds h x → holds k x → h=k

namespace Owned

variable {holds holds' : η → α → Prop} {used used' : α → Prop} {a b : η} {X : α → Prop}

section

variable (h : Owned holds used)

include h

theorem congr (hh : ∀ k x,holds' k x ↔ holds k x) : Owned holds' used := by
  constructor
  · intro x
    rw [h.covered]
    exact exists_congr (fun k => (hh k x).symm)
  · intro k l x hk hl
    exact h.sole k l x ((hh k x).mp hk) ((hh l x).mp hl)

/-- A holder gets things that were not in use. -/
theorem acquire (hX : ∀ x,X x → ¬used x) (hu : ∀ x,used' x ↔ used x ∨ X x)
    (hto : ∀ x,holds' a x ↔ holds a x ∨ X x) (hrest : ∀ k,k≠a → ∀ x,holds' k x ↔ holds k x) : Owned holds' used' := by
  have hfresh : ∀ k x,X x → ¬holds k x := fun k x hx hk => hX x hx ((h.covered x).mpr ⟨k,hk⟩)
  have hcases : ∀ k x,holds' k x → holds k x ∨ (k=a ∧ X x) := by
    intro k x hk
    by_cases hka : k=a
    · subst hka
      exact ((hto x).mp hk).imp_right (fun hx => ⟨rfl,hx⟩)
    · exact .inl ((hrest k hka x).mp hk)
  have hold : ∀ k x,holds k x → holds' k x := by
    intro k x hk
    by_cases hka : k=a
    · subst hka
      exact (hto x).mpr (.inl hk)
    · exact (hrest k hka x).mpr hk
  constructor
  · intro x
    rw [hu,h.covered]
    constructor
    · rintro (⟨k,hk⟩ | hx)
      · exact ⟨k,hold k x hk⟩
      · exact ⟨a,(hto x).mpr (.inr hx)⟩
    · rintro ⟨k,hk⟩
      obtain hk | ⟨-,hx⟩ := hcases k x hk
      · exact .inl ⟨k,hk⟩
      · exact .inr hx
  · intro k l x hk hl
    obtain hk | ⟨hka,hx⟩ := hcases k x hk
    · obtain hl | ⟨-,hx⟩ := hcases l x hl
      · exact h.sole k l x hk hl
      · exact absurd hk (hfresh k x hx)
    · obtain hl | ⟨hla,-⟩ := hcases l x hl
      · exact absurd hl (hfresh l x hx)
      · exact hka.trans hla.symm

theorem release (hX : ∀ x,X x → holds a x) (hu : ∀ x,used' x ↔ used x ∧ ¬X x)
    (hfrom : ∀ x,holds' a x ↔ holds a x ∧ ¬X x) (hrest : ∀ k,k≠a → ∀ x,holds' k x ↔ holds k x) : Owned holds' used' := by
  have hiff : ∀ k x,holds' k x ↔ holds k x ∧ ¬X x := by
    intro k x
    by_cases hka : k=a
    · subst hka
      exact hfrom x
    · rw [hrest k hka]
      exact ⟨fun hk => ⟨hk,fun hx => hka (h.sole k a x hk (hX x hx))⟩,And.left⟩
  constructor
  · intro x
    rw [hu,h.covered]
    constructor
    · rintro ⟨⟨k,hk⟩,hx⟩
      exact ⟨k,(hiff k x).mpr ⟨hk,hx⟩⟩
    · rintro ⟨k,hk⟩
      obtain ⟨hk,hx⟩ := (hiff k x).mp hk
      exact ⟨⟨k,hk⟩,hx⟩
  · intro k l x hk hl
    exact h.sole k l x ((hiff k x).mp hk).1 ((hiff l x).mp hl).1

theorem transfer (hab : a≠b) (hX : ∀ x,X x → holds a x)
    (hto : ∀ x,holds' b x ↔ holds b x ∨ X x) (hfrom : ∀ x,holds' a x ↔ holds a x ∧ ¬X x)
    (hrest : ∀ k,k≠a → k≠b → ∀ x,holds' k x ↔ holds k x) : Owned holds' used := by
  -- out of use in between
  have hgone : Owned (fun k x => holds k x ∧ ¬(k=a ∧ X x)) (fun x => used x ∧ ¬X x) := by
    apply h.release hX (fun x => Iff.rfl)
    · intro x
      simp
    · intro k hk x
      simp [hk]
  apply hgone.acquire (a := b) (X := X)
  · exact fun x hx hu => hu.2 hx
  · intro x
    by_cases hx : X x
    · exact ⟨fun _ => .inr hx,fun _ => (h.covered x).mpr ⟨a,hX x hx⟩⟩
    · simp [hx]
  · intro x
    rw [hto x]
    simp [Ne.symm hab]
  · intro k hkb x
    by_cases hka : k=a
    · subst hka
      rw [hfrom x]
      simp
    · rw [hrest k hka hkb x]
      simp [hka]

end

end Owned

end Ext2fsX.Framework
