import Afabric.Support.RingBuffer
import Mathlib.Data.List.Count
import Mathlib.Tactic.Linarith
import Mathlib.Tactic.Ring

/-!
# Support — serving in turn

A server of `n` clients in a circle, which are busy or not at each service.  It serves the client at
its position, which may then have some credit left for further services in a row; else it goes on to
the next busy client, with the credit of one service less than the weight of that client.

While a client stays busy it is not passed over, so that no other client gets more than its weight
ahead of it: the services in the proportion of the weights differ by one round (`fair`).
-/

namespace Afabric

open RingBuffer

structure Turn where
  pos : ℕ
  credit : ℕ
deriving DecidableEq

namespace Turn

variable (n : ℕ) (w : ℕ → ℕ)

inductive Serves (busy : ℕ → Prop) : Turn → Turn → Prop where
  | stay {t : Turn} (hc : 0 < t.credit) (hb : busy t.pos) :
      Serves busy t ⟨t.pos, t.credit - 1⟩
  | move {t : Turn} {k : ℕ} (hleave : t.credit = 0 ∨ ¬ busy t.pos) (hk : 0 < k) (hkn : k ≤ n)
      (hskip : ∀ j, 0 < j → j < k → ¬ busy (off n t.pos j)) (hb : busy (off n t.pos k)) :
      Serves busy t ⟨off n t.pos k, w (off n t.pos k) - 1⟩

/-- Services with the client `a` busy at each, and who was served, the last one first. -/
inductive Segment (a : ℕ) (t₀ : Turn) : Turn → List ℕ → Prop where
  | refl : Segment a t₀ t₀ []
  | serve {t t' : Turn} {l : List ℕ} {busy : ℕ → Prop} (h : Segment a t₀ t l) (ha : busy a)
      (hs : Serves n w busy t t') : Segment a t₀ t' (t'.pos :: l)

variable {n w} {a b : ℕ} {t t' : Turn} {busy : ℕ → Prop}

theorem dist_self (ha : a < n) : dist n a a = 0 := by
  rw [RingBuffer.dist, Nat.add_sub_cancel' ha.le, Nat.mod_self]

theorem dist_eq_zero_iff (ha : a < n) (hb : b < n) : dist n a b = 0 ↔ b = a := by
  constructor
  · intro h
    rw [← off_dist ha hb, h, off_zero ha]
  · rintro rfl
    exact dist_self ha

/-- A busy client is not passed over. -/
theorem dist_move {p k : ℕ} (ha : a < n) (hp : p < n) (hk : 0 < k)
    (hskip : ∀ j, 0 < j → j < k → off n p j ≠ a) :
    off n p k = a ∨ dist n a p < dist n a (off n p k) := by
  have hd : dist n a p < n := Nat.mod_lt _ (Nat.zero_lt_of_lt ha)
  have hoff : ∀ j, off n p j = off n a (dist n a p + j) := by
    intro j
    nth_rewrite 1 [← off_dist ha hp]
    rw [off, off, off, Nat.mod_add_mod, Nat.add_assoc]
  rcases lt_trichotomy (dist n a p + k) n with hlt | heq | hgt
  · refine .inr ?_
    rw [hoff, dist_off ha hlt]
    omega
  · refine .inl ?_
    rw [hoff, heq, off, Nat.add_mod_right, Nat.mod_eq_of_lt ha]
  · refine absurd ?_ (hskip (n - dist n a p) (by omega) (by omega))
    rw [hoff, Nat.add_sub_cancel' hd.le, off, Nat.add_mod_right, Nat.mod_eq_of_lt ha]

/-- How far `b` is ahead of `a`, by where the server is in the round that starts at `a`. -/
structure Ahead (n : ℕ) (w : ℕ → ℕ) (a b : ℕ) (t : Turn) (l : List ℕ) : Prop where
  pos : t.pos < n
  credit : t.credit < w t.pos
  at_a : t.pos = a → l.count b * w a ≤ l.count a * w b + t.credit * w b
  before : 0 < dist n a t.pos → dist n a t.pos < dist n a b →
    l.count b * w a ≤ l.count a * w b
  at_b : t.pos = b → l.count b * w a + w a * t.credit ≤ l.count a * w b + w a * w b
  after : l.count b * w a ≤ l.count a * w b + w a * w b

namespace Ahead

variable {l : List ℕ}

theorem refl (hab : b ≠ a) (ht : t.pos < n) (hc : t.credit < w t.pos) :
    Ahead n w a b t [] where
  pos := ht
  credit := hc
  at_a := fun _ => by simp
  before := fun _ _ => by simp
  at_b := by
    rintro rfl
    simpa using Nat.mul_le_mul_left (w a) hc.le
  after := by simp

theorem stay (hab : b ≠ a) (h : Ahead n w a b t l) (hc : 0 < t.credit) :
    Ahead n w a b ⟨t.pos, t.credit - 1⟩ (t.pos :: l) := by
  obtain ⟨c, hcredit⟩ : ∃ c, t.credit = c + 1 := ⟨t.credit - 1, by omega⟩
  have hat := h.at_a
  have hbt := h.at_b
  have hlt := h.credit
  rw [hcredit] at hat hbt hlt ⊢
  rw [Nat.add_sub_cancel]
  refine ⟨h.pos, by simp only; omega, ?_, ?_, ?_, ?_⟩
  · rintro hpos
    simp only at hpos
    have hle := hat hpos
    rw [hpos, List.count_cons_self, List.count_cons_of_ne hab.symm]
    linarith
  · intro h0 h1
    have hpa : t.pos ≠ a := by
      rintro rfl
      exact absurd h0 (by rw [dist_self h.pos]; omega)
    have hpb : t.pos ≠ b := by
      rintro rfl
      exact absurd h1 (lt_irrefl _)
    rw [List.count_cons_of_ne hpa, List.count_cons_of_ne hpb]
    exact h.before h0 h1
  · rintro hpos
    simp only at hpos
    have hle := hbt hpos
    rw [hpos, List.count_cons_self, List.count_cons_of_ne hab]
    linarith
  · rcases eq_or_ne t.pos b with hpos | hpb
    · have hle := hbt hpos
      rw [hpos, List.count_cons_self, List.count_cons_of_ne hab]
      nlinarith [Nat.zero_le (w a * c)]
    · rw [List.count_cons_of_ne hpb]
      have hle := h.after
      have hmono := Nat.mul_le_mul_right (w b)
        (List.count_le_count_cons (a := a) (b := t.pos) (l := l))
      omega

theorem move (ha : a < n) (hb : b < n) (hab : b ≠ a) (hw : ∀ q, 0 < w q)
    (h : Ahead n w a b t l) (hbusy : busy a) {k : ℕ} (hleave : t.credit = 0 ∨ ¬ busy t.pos)
    (hk : 0 < k) (hskip : ∀ j, 0 < j → j < k → ¬ busy (off n t.pos j)) :
    Ahead n w a b ⟨off n t.pos k, w (off n t.pos k) - 1⟩ (off n t.pos k :: l) := by
  have hn : 0 < n := Nat.zero_lt_of_lt ha
  have hmove := dist_move ha h.pos hk fun j h0 h1 he => hskip j h0 h1 (he ▸ hbusy)
  have hleft : t.pos = a → t.credit = 0 := by
    rintro rfl
    exact hleave.resolve_right fun hnb => hnb hbusy
  -- What `b` is ahead when the server has not come to it yet.
  have hbefore : dist n a t.pos < dist n a b → l.count b * w a ≤ l.count a * w b := by
    intro hlt
    rcases Nat.eq_zero_or_pos (dist n a t.pos) with h0 | h0
    · have hpos := (dist_eq_zero_iff ha h.pos).mp h0
      have hle := h.at_a hpos
      rwa [hleft hpos, Nat.zero_mul, Nat.add_zero] at hle
    · exact h.before h0 hlt
  generalize hq : off n t.pos k = q at *
  have hqn : q < n := hq ▸ off_lt hn
  have hwq := hw q
  refine ⟨hqn, by simp only; omega, ?_, ?_, ?_, ?_⟩
  · rintro hpos
    simp only at hpos
    subst hpos
    obtain ⟨c, hc⟩ : ∃ c, w q = c + 1 := ⟨w q - 1, by omega⟩
    have hle := h.after
    rw [List.count_cons_self, List.count_cons_of_ne hab.symm]
    simp only [hc, Nat.add_sub_cancel] at hle ⊢
    linarith
  · intro h0 h1
    simp only at h0 h1
    have hqa : q ≠ a := by
      rintro rfl
      exact absurd h0 (by rw [dist_self hqn]; omega)
    have hqb : q ≠ b := by
      rintro rfl
      exact absurd h1 (lt_irrefl _)
    rw [List.count_cons_of_ne hqa, List.count_cons_of_ne hqb]
    exact hbefore ((hmove.resolve_left hqa).trans h1)
  · rintro hpos
    simp only at hpos
    subst hpos
    obtain ⟨c, hc⟩ : ∃ c, w q = c + 1 := ⟨w q - 1, by omega⟩
    have hle := hbefore (hmove.resolve_left hab)
    rw [List.count_cons_self, List.count_cons_of_ne hab]
    simp only [hc, Nat.add_sub_cancel] at hle ⊢
    linarith
  · rcases eq_or_ne q b with rfl | hqb
    · have hle := hbefore (hmove.resolve_left hab)
      rw [List.count_cons_self, List.count_cons_of_ne hab]
      nlinarith [Nat.mul_le_mul_left (w a) hwq]
    · rw [List.count_cons_of_ne hqb]
      have hle := h.after
      have hmono := Nat.mul_le_mul_right (w b)
        (List.count_le_count_cons (a := a) (b := q) (l := l))
      omega

end Ahead

/-- **Fairness**: while `a` is busy, no other client gets more than its weight ahead of it. -/
theorem fair (ha : a < n) (hb : b < n) (hw : ∀ q, 0 < w q) (hpos : t.pos < n)
    (hcredit : t.credit < w t.pos) {l : List ℕ} (h : Segment n w a t t' l) :
    l.count b * w a ≤ l.count a * w b + w a * w b := by
  rcases eq_or_ne b a with rfl | hab
  · exact Nat.le_add_right _ _
  suffices Ahead n w a b t' l from this.after
  induction h with
  | refl => exact .refl hab hpos hcredit
  | serve h hbusy hs ih =>
    cases hs with
    | stay hc hb => exact ih.stay hab hc
    | move hleave hk hkn hskip hb' => exact ih.move ha hb hab hw hbusy hleave hk hskip

end Turn

end Afabric
