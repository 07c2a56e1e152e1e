import PdfPrimitives.Proofs.Function.Indexing

/-!
The subdomains of a stitching function. They divide the domain, however often a bound is
repeated, so that a number inside belongs to exactly one of them. A scan from the left finds it,
and so does a search that halves the bounds.
-/

namespace PdfPrimitives

variable {α : Type}

/-- Search `size` items from the place `base` on for the first one that does not lie inside.
They are halved until one is left. -/
def bisect (inside : α → Bool) (items : List α) (base size : Nat) : Nat :=
  if size ≤ 1 then if items[base]?.any inside then base + 1 else base
  else
    let half := size / 2
    if items[base + half]?.any inside then bisect inside items (base + half) (size - half)
    else bisect inside items base (size - half)
termination_by size

/-- What is inside comes before what is not. -/
theorem inside_iff_lt (inside : α → Bool) (items : List α)
    (parted : items.Pairwise fun first second => inside second = true → inside first = true)
    (index : Nat) :
    items[index]?.any inside = true ↔ index < (items.takeWhile inside).length := by
  induction parted generalizing index with
  | nil => simp
  | @cons item items before _ ih =>
    by_cases first : inside item = true
    · rw [List.takeWhile_cons_of_pos first]
      cases index with
      | zero => simp [first]
      | succ index =>
        rw [List.getElem?_cons_succ, ih, List.length_cons]
        exact Nat.succ_lt_succ_iff.symm
    · rw [List.takeWhile_cons_of_neg first]
      refine iff_of_false ?_ (Nat.not_lt_zero index)
      intro found
      obtain ⟨other, here, holds⟩ := (Option.any_eq_true _ _).mp found
      rcases List.mem_cons.mp (List.mem_of_getElem? here) with rfl | member
      · exact first holds
      · exact first (before other member holds)

/-- Halving keeps the border between the places that are left. -/
theorem bisect_eq (inside : α → Bool) (items : List α) (border : Nat)
    (parted : ∀ index, items[index]?.any inside = true ↔ index < border) (base size : Nat)
    (low : base ≤ border) (high : border ≤ base + size) :
    bisect inside items base size = border := by
  fun_induction bisect inside items base size with
  | case1 base size short here =>
    have := (parted base).mp here
    omega
  | case2 base size short here =>
    have := mt (parted base).mpr here
    omega
  | case3 base size long half here ih =>
    have := (parted (base + half)).mp here
    apply ih <;> omega
  | case4 base size long half here ih =>
    have := mt (parted (base + half)).mpr here
    apply ih <;> omega

namespace Stitching

variable [Scalar α]

def Between (ends : List α) (index : Nat) (x : α) : Prop :=
  ∃ low ∈ ends[index]?, ∃ high ∈ ends[index + 1]?, low ≤ x ∧ x < high

theorem between_succ (low : α) (ends : List α) (index : Nat) (x : α) :
    Between (low :: ends) (index + 1) x ↔ Between ends index x := by
  rfl

theorem between_zero (low high : α) (ends : List α) (x : α) :
    Between (low :: high :: ends) 0 x ↔ low ≤ x ∧ x < high := by
  simp [Between]

theorem low_of_between {ends : List α} {index : Nat} {x : α} (between : Between ends index x) :
    ∃ low ∈ ends, low ≤ x := by
  rcases between with ⟨low, here, -, -, below, -⟩
  exact ⟨low, List.mem_of_getElem? here, below⟩

variable [OrderedScalar α]

theorem pairwise_of_intervals {low high : α} {bounds : List α}
    (ascending : ∀ subdomain ∈ intervals low bounds high, subdomain.low ≤ subdomain.high) :
    (low :: (bounds ++ [high])).Pairwise (· ≤ ·) := by
  induction bounds generalizing low with
  | nil =>
    have whole := ascending ⟨low, high⟩ List.mem_cons_self
    exact List.pairwise_pair.mpr whole
  | cons bound bounds ih =>
    have first : low ≤ bound := ascending ⟨low, bound⟩ List.mem_cons_self
    have later := ih fun subdomain member => ascending subdomain (List.mem_cons_of_mem _ member)
    apply List.Pairwise.cons
    · intro other member
      rcases List.mem_cons.mp member with rfl | behind
      · exact first
      · exact OrderedScalar.le_trans first (List.rel_of_pairwise_cons later behind)
    · exact later

theorem Ordered.ascending {parts : Stitching α} (ordered : parts.Ordered) :
    parts.fullBounds.Pairwise (· ≤ ·) :=
  pairwise_of_intervals ordered

/-- A number inside the domain belongs to the subdomain behind the bounds that it is not
below. -/
theorem between_iff (low high : α) (bounds : List α) (x : α)
    (ascending : (low :: (bounds ++ [high])).Pairwise (· ≤ ·)) (inside : low ≤ x)
    (short : x < high) (index : Nat) :
    Between (low :: (bounds ++ [high])) index x ↔
      index = (bounds.takeWhile fun bound => decide (bound ≤ x)).length := by
  induction bounds generalizing low index with
  | nil =>
    cases index with
    | zero => simp [between_zero, inside, short]
    | succ index => simp [Between]
  | cons bound bounds ih =>
    have later := (List.pairwise_cons.mp ascending).2
    by_cases above : bound ≤ x
    · rw [List.takeWhile_cons, if_pos (decide_eq_true above), List.length_cons]
      cases index with
      | zero =>
        rw [List.cons_append, between_zero]
        have reached : ¬x < bound := fun below => (OrderedScalar.lt_iff.mp below).2 above
        simp [reached]
      | succ index =>
        rw [List.cons_append, between_succ, ih bound later above, Nat.succ_inj]
    · rw [List.takeWhile_cons, if_neg (by simpa using above), List.length_nil]
      have number := (OrderedScalar.numbers_of_le inside).2
      have bounded := (OrderedScalar.numbers_of_le (List.rel_of_pairwise_cons ascending
        List.mem_cons_self)).2
      cases index with
      | zero =>
        rw [List.cons_append, between_zero]
        simp [inside, (OrderedScalar.not_le number bounded).mp above]
      | succ index =>
        -- All further ends are at `bound` or above it.
        rw [List.cons_append, between_succ]
        refine iff_of_false ?_ (Nat.succ_ne_zero index)
        intro between
        rcases low_of_between between with ⟨other, member, below⟩
        apply above
        rcases List.mem_cons.mp member with rfl | behind
        · exact below
        · exact OrderedScalar.le_trans (List.rel_of_pairwise_cons later behind) below

/-- A scan from the left ends at the first subdomain that `x` is not behind. -/
theorem findIdx_intervals (low high : α) (bounds : List α) (x : α)
    (number : Scalar.isNaN x = false) (bounded : ∀ bound ∈ bounds, Scalar.isNaN bound = false)
    (short : x < high) :
    (intervals low bounds high).findIdx (fun subdomain => decide (x < subdomain.high)) =
      (bounds.takeWhile fun bound => decide (bound ≤ x)).length := by
  induction bounds generalizing low with
  | nil => simp [intervals, List.findIdx_cons, short]
  | cons bound bounds ih =>
    have later := ih bound fun other member => bounded other (List.mem_cons_of_mem _ member)
    have apart := OrderedScalar.not_le number (bounded bound List.mem_cons_self)
    rw [intervals, List.findIdx_cons, List.takeWhile_cons, later]
    by_cases above : bound ≤ x
    · simp [above, mt apart.mpr (not_not.mpr above)]
    · simp [above, apart.mp above]

/-- What is below the domain is given to the first subdomain, and what is not below its upper
end to the last one. -/
theorem locate_outside (parts : Stitching α) (ordered : parts.Ordered) (x : α) :
    (Scalar.isNaN x = true ∨ x < parts.domain.low → parts.locate x = (0, parts.domain.low)) ∧
      (parts.domain.high ≤ x →
        parts.locate x = (parts.bounds.length, parts.domain.high)) := by
  constructor
  · intro below
    have outside : ¬parts.domain.low ≤ x := by
      rintro inside
      rcases below with undefined | below
      · simp [(OrderedScalar.numbers_of_le inside).2] at undefined
      · exact (OrderedScalar.lt_iff.mp below).2 inside
    have short : ¬parts.domain.high ≤ x := by
      intro above
      exact outside (OrderedScalar.le_trans (le_of_intervals ordered) above)
    simp only [locate, short, outside, ↓reduceIte]
  · intro above
    simp only [locate, above, ↓reduceIte]

theorem locate_within (parts : Stitching α) (ordered : parts.Ordered) (x : α) :
    parts.domain.low ≤ (parts.locate x).2 ∧ (parts.locate x).2 ≤ parts.domain.high := by
  have ends : parts.domain.low ≤ parts.domain.high := le_of_intervals ordered
  have numbers := OrderedScalar.numbers_of_le ends
  unfold locate
  split
  · exact ⟨ends, OrderedScalar.le_refl numbers.2⟩
  · next short =>
    split
    · next inside =>
      have number := (OrderedScalar.numbers_of_le inside).2
      exact ⟨inside, (OrderedScalar.le_total number numbers.2).resolve_right short⟩
    · exact ⟨OrderedScalar.le_refl numbers.1, ends⟩

/-- A number inside the domain stays as it is, and goes to the one subdomain that it belongs
to. -/
theorem locate_inside (parts : Stitching α) (ordered : parts.Ordered) (x : α)
    (inside : parts.domain.low ≤ x) (short : x < parts.domain.high) :
    (parts.locate x).2 = x ∧
      (∀ index, Between parts.fullBounds index x ↔ index = (parts.locate x).1) ∧
      (intervals parts.domain.low parts.bounds parts.domain.high).findIdx
        (fun subdomain => decide (x < subdomain.high)) = (parts.locate x).1 ∧
      bisect (fun bound => decide (bound ≤ x)) parts.bounds 0 parts.bounds.length =
        (parts.locate x).1 := by
  have below := (OrderedScalar.lt_iff.mp short).2
  have place : parts.locate x =
      ((parts.bounds.takeWhile fun bound => decide (bound ≤ x)).length, x) := by
    simp only [locate, below, inside, ↓reduceIte]
  have number := (OrderedScalar.numbers_of_le inside).2
  have sorted : parts.bounds.Pairwise (· ≤ ·) := ordered.ascending.tail.sublist
    (List.sublist_append_left _ _)
  rw [place]
  refine ⟨rfl, ?_, ?_, ?_⟩
  · exact between_iff _ _ _ x ordered.ascending inside short
  · apply findIdx_intervals _ _ _ x number _ short
    intro bound member
    exact (OrderedScalar.numbers_of_le (List.rel_of_pairwise_cons ordered.ascending
      (List.mem_append_left _ member))).2
  · have parted := inside_iff_lt (fun bound => decide (bound ≤ x)) parts.bounds
      (sorted.imp fun ascends later => by
        simpa using OrderedScalar.le_trans ascends (of_decide_eq_true later))
    apply bisect_eq _ _ _ parted 0 _ (Nat.zero_le _)
    rw [Nat.zero_add]
    exact (List.takeWhile_sublist _).length_le

end Stitching

namespace PdfFunction

variable [Elementary α] [OrderedScalar α]

/-- The pieces of a stitching function divide its domain. Each number inside the domain goes to
the piece of the one subdomain that it belongs to, which is what a scan from the left and a
search by halves find, and every other number to an end of the domain. -/
theorem stitching_divides_domain {domain : List (Interval α)} {range : Option (List (Interval α))}
    {pieces : List (PdfFunction α)} {bounds : List α} {encode : List (Interval α)}
    {function : PdfFunction α}
    (made : ofStitching domain range pieces bounds encode = .ok function) :
    ∃ parts, function = .stitching parts pieces ∧ domain = [parts.domain] ∧
      parts.bounds = bounds ∧ ∀ x, ∃ index clipped, parts.locate x = (index, clipped) ∧
        index < pieces.length ∧
        parts.domain.low ≤ clipped ∧ clipped ≤ parts.domain.high ∧
        (Scalar.isNaN x = true ∨ x < parts.domain.low →
          index = 0 ∧ clipped = parts.domain.low) ∧
        (parts.domain.high ≤ x → index = pieces.length - 1 ∧ clipped = parts.domain.high) ∧
        (parts.domain.low ≤ x → x < parts.domain.high →
          clipped = x ∧
          (∀ other, Stitching.Between parts.fullBounds other x ↔ other = index) ∧
          (Stitching.intervals parts.domain.low bounds parts.domain.high).findIdx
            (fun subdomain => decide (x < subdomain.high)) = index ∧
          bisect (fun bound => decide (bound ≤ x)) bounds 0 bounds.length = index) := by
  rcases parts_of_stitching made with ⟨parts, rfl, joined⟩
  rcases Stitching.ordered_of_parts joined with ⟨whole, rfl, ordered⟩
  have joins := (Stitching.joins_of_parts joined).1
  rw [List.length_map] at joins
  have last : parts.bounds.length = pieces.length - 1 := by
    rw [← joins.bounds, Nat.add_sub_cancel]
  refine ⟨parts, rfl, whole, rfl, ?_⟩
  intro x
  have outside := parts.locate_outside ordered x
  have inside := parts.locate_inside ordered x
  have clips := parts.locate_within ordered x
  refine ⟨(parts.locate x).1, (parts.locate x).2, rfl, parts.locate_lt joins x, clips.1, clips.2,
    ?_, ?_, inside⟩
  · intro below
    rw [outside.1 below]
    exact ⟨rfl, rfl⟩
  · intro above
    rw [outside.2 above]
    exact ⟨last, rfl⟩

section Steps

def unchanged : PdfFunction Float := .calculation ⟨[⟨0, 1⟩], [⟨0, 1⟩], ⟨[.stop]⟩⟩

/-- Three of five subdomains have no width. The bound in the middle belongs to the fourth
one. -/
theorem emptySubdomains_divide_domain :
    ∃ parts, ofStitching [⟨0, 1⟩] none (List.replicate 5 unchanged) [0, 0.5, 0.5, 1]
        (List.replicate 5 ⟨0, 1⟩) = .ok (.stitching parts (List.replicate 5 unchanged)) ∧
      parts.domain.low ≤ 0.5 ∧ 0.5 < parts.domain.high ∧ parts.locate 0.5 = (3, 0.5) := by
  have done : (ofStitching [⟨0, 1⟩] none (List.replicate 5 unchanged) [0, 0.5, 0.5, 1]
      (List.replicate 5 ⟨0, 1⟩)).isOk = true := by decide +kernel
  cases made : ofStitching [⟨0, 1⟩] none (List.replicate 5 unchanged) [0, 0.5, 0.5, 1]
      (List.replicate 5 ⟨0, 1⟩) with
  | error failure =>
    rw [made] at done
    cases done
  | ok function =>
    rcases stitching_divides_domain made with ⟨parts, rfl, whole, -, divides⟩
    rcases divides 0.5 with ⟨index, clipped, located, -, -, -, -, -, inside⟩
    refine ⟨parts, rfl, ?_⟩
    rw [← List.singleton_inj.mp whole] at inside ⊢
    have low : (0 : Float) ≤ 0.5 := by decide +kernel
    have high : (0.5 : Float) < 1 := by decide +kernel
    rcases inside low high with ⟨rfl, -, scanned, -⟩
    have third : (Stitching.intervals (0 : Float) [0, 0.5, 0.5, 1] 1).findIdx
        (fun subdomain => decide (0.5 < subdomain.high)) = 3 := by decide +kernel
    exact ⟨low, high, located.trans (by rw [← scanned, third])⟩

end Steps

end PdfFunction

end PdfPrimitives
