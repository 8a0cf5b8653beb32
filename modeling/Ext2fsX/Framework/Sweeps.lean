import Ext2fsX.Framework.Chains
import Ext2fsX.Framework.Tiling

namespace Ext2fsX.Framework

/-- A loop over a buffer: what a pass goes on with, if it does, and the end of what it reads. -/
structure Sweep (σ : Type) where
  next : σ → Option σ
  extent : σ → ℕ

namespace Sweep

variable {σ : Type} {S : Sweep σ} {limit : ℕ} {s t : σ}

/-- The loop comes to an end, and every pass stays below `limit`. -/
def Safe (S : Sweep σ) (limit : ℕ) (s : σ) : Prop :=
  (∃ n,climb S.next n s=none) ∧ ∀ n t,climb S.next n s=some t → S.extent t≤limit

theorem Safe.extent_le (h : S.Safe limit s) : S.extent s≤limit := h.2 0 s rfl

theorem safe_of_none (hn : S.next s=none) : S.Safe limit s ↔ S.extent s≤limit := by
  constructor
  · exact Safe.extent_le
  intro he
  refine ⟨⟨1,by rw [climb_succ,hn,Option.bind_none]⟩,fun n t ht => ?_⟩
  cases n with
  | zero =>
    cases ht
    exact he
  | succ n =>
    rw [climb_succ,hn,Option.bind_none] at ht
    cases ht

theorem safe_of_some (hn : S.next s=some t) :
    S.Safe limit s ↔ S.extent s≤limit ∧ S.Safe limit t := by
  have hclimb (n : ℕ) : climb S.next (n+1) s=climb S.next n t := by
    rw [climb_succ,hn,Option.bind_some]
  constructor
  · rintro ⟨⟨n,hend⟩,hall⟩
    refine ⟨hall 0 s rfl,?_,fun k u hu => hall (k+1) u (by rw [hclimb,hu])⟩
    cases n with
    | zero => cases hend
    | succ n => exact ⟨n,by rw [← hclimb,hend]⟩
  · rintro ⟨he,⟨n,hend⟩,hall⟩
    refine ⟨⟨n+1,by rw [hclimb,hend]⟩,fun k u hu => ?_⟩
    cases k with
    | zero =>
      cases hu
      exact he
    | succ k => exact hall k u (by rw [← hclimb,hu])

/-- The buffer is cut into records that are not empty, up to a place where the sweep stops. -/
theorem safe_iff_tiles {ρ : Type} (len : ρ → ℕ) (rd : ℕ → ρ) {S : Sweep ℕ} (go : ℕ → Prop)
    (hgo : ∀ o,go o → S.next o=some (o+len (rd o))) (hstop : ∀ o,¬go o → S.next o=none) (o : ℕ) :
    S.Safe limit o ↔ ∃ rs,Tiles len rd (fun p r => go p ∧ 0<len r ∧ S.extent p≤limit) o rs ∧
      ¬go (o+total len rs) ∧ S.extent (o+total len rs)≤limit := by
  constructor
  · intro h
    obtain ⟨n,hn⟩ := h.1
    induction n generalizing o with
    | zero => cases hn
    | succ n ih =>
      by_cases hg : go o
      · have hnext := hgo o hg
        obtain ⟨he,hsafe⟩ := (safe_of_some hnext).mp h
        -- an empty record is read again and again
        have hpos : 0<len (rd o) := by
          by_contra hzero
          have hloop : climb S.next 1 o=some o := by
            rw [climb_succ,hnext,Option.bind_some,climb_zero]
            congr 1
            omega
          have hround := climb_loop hloop (n+1)
          rw [Nat.mul_one,hn] at hround
          cases hround
        rw [climb_succ,hnext,Option.bind_some] at hn
        obtain ⟨rs,ht,hlast,hext⟩ := ih _ hsafe hn
        refine ⟨rd o::rs,⟨rfl,⟨hg,hpos,he⟩,ht⟩,?_⟩
        rw [total_cons,← Nat.add_assoc]
        exact ⟨hlast,hext⟩
      · exact ⟨[],trivial,hg,h.extent_le⟩
  · rintro ⟨rs,ht,hlast,hext⟩
    induction rs generalizing o with
    | nil => exact (safe_of_none (hstop o hlast)).mpr hext
    | cons r rs ih =>
      obtain ⟨rfl,⟨hg,-,he⟩,ht⟩ := ht
      rw [total_cons,← Nat.add_assoc] at hlast hext
      exact (safe_of_some (hgo o hg)).mpr ⟨he,ih _ ht hlast hext⟩

end Sweep

end Ext2fsX.Framework
