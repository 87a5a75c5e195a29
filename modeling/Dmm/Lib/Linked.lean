import Mathlib

/-!
# Doubly linked paths

A structure linked both ways by two functions, `next` and `prev`. `Walk next prev s l e` says
that the elements between `s` and `e` are those of `l`, in this order; a ring headed at `s`
is a path from `s` to `s`. Taking an element out and putting one in are the two pointer
updates they are in a program, and give the paths one expects when no element occurs twice.

`seek` follows one of the functions until a test succeeds; along a path whose end passes the
test it finds the first element that does.
-/

namespace Dmm.Linked

universe u

variable {α : Type u} {next prev next' prev' : α → α} {s e x : α} {l l₁ l₂ : List α}

/-- From `s` through the elements of the list to `e`, linked both ways. -/
def Walk (next prev : α → α) : α → List α → α → Prop
  | s, [], e => next s = e ∧ prev e = s
  | s, x :: l, e => next s = x ∧ prev x = s ∧ Walk next prev x l e

/-- Whether a list is a path can be computed. -/
instance Walk.decidable [DecidableEq α] (next prev : α → α) :
    (s : α) → (l : List α) → (e : α) → Decidable (Walk next prev s l e)
  | s, [], e => inferInstanceAs (Decidable (next s = e ∧ prev e = s))
  | s, x :: l, e =>
    have : Decidable (Walk next prev x l e) := Walk.decidable next prev x l e
    inferInstanceAs (Decidable (next s = x ∧ prev x = s ∧ Walk next prev x l e))

theorem Walk.congr (path : Walk next prev s l e) (forward : ∀ c ∈ s :: l, next' c = next c)
    (backward : ∀ c ∈ l ++ [e], prev' c = prev c) : Walk next' prev' s l e := by
  induction l generalizing s with
  | nil => exact ⟨(forward s (by simp)).trans path.1, (backward e (by simp)).trans path.2⟩
  | cons y l ih =>
    refine ⟨(forward s (by simp)).trans path.1, (backward y (by simp)).trans path.2.1, ?_⟩
    apply ih path.2.2
    · intro c member
      exact forward c (List.mem_cons_of_mem s member)
    · intro c member
      exact backward c (by simp_all)

/-- A path through an element is a path to it and a path from it. -/
theorem walk_append : Walk next prev s (l₁ ++ x :: l₂) e ↔
    Walk next prev s l₁ x ∧ Walk next prev x l₂ e := by
  induction l₁ generalizing s with
  | nil => simp [Walk, and_assoc]
  | cons y l ih => simp [Walk, ih, and_assoc]

theorem Walk.reverse (path : Walk next prev s l e) : Walk prev next e l.reverse s := by
  induction l generalizing s with
  | nil => exact ⟨path.2, path.1⟩
  | cons y l ih =>
    rw [List.reverse_cons, walk_append]
    exact ⟨ih path.2.2, path.2.1, path.1⟩

theorem Walk.next_start (path : Walk next prev s l e) : next s = l.headD e := by
  cases l with
  | nil => exact path.1
  | cons y l => exact path.1

theorem Walk.prev_end (path : Walk next prev s l e) : prev e = l.getLastD s := by
  induction l generalizing s with
  | nil => exact path.2
  | cons y l ih =>
    rw [List.getLastD_cons]
    exact ih path.2.2

theorem Walk.end_eq (path : Walk next prev s l e) (trapped : next s = s) : e = s := by
  induction l with
  | nil => exact path.1.symm.trans trapped
  | cons y l ih =>
    rw [path.1.symm.trans trapped] at path
    exact ih path.2.2

theorem Walk.joint (path : Walk next prev s (l₁ ++ l₂) e) :
    next (l₁.getLastD s) = l₂.headD e ∧ prev (l₂.headD e) = l₁.getLastD s := by
  induction l₁ generalizing s with
  | nil =>
    cases l₂ with
    | nil => exact path
    | cons y l => exact ⟨path.1, path.2.1⟩
  | cons y l ih =>
    rw [List.getLastD_cons]
    exact ih path.2.2

/-- The last element before a cut is the start or one of the elements before it. -/
theorem getLastD_mem (l : List α) (s : α) : l.getLastD s ∈ s :: l := by
  induction l generalizing s with
  | nil => simp
  | cons y l ih =>
    rw [List.getLastD_cons]
    exact List.mem_cons_of_mem s (ih y)

/-- The first element after a cut is the end or one of the elements after it. -/
theorem headD_mem (l : List α) (e : α) : l.headD e ∈ l ++ [e] := by
  cases l <;> simp

theorem Walk.take (path : Walk next prev s (l₁ ++ l₂) e) :
    Walk next prev s l₁ (l₂.headD e) := by
  cases l₂ with
  | nil => simpa using path
  | cons y l => exact (walk_append.mp path).1

theorem Walk.drop (path : Walk next prev s (l₁ ++ l₂) e) :
    Walk next prev (l₁.getLastD s) l₂ e := by
  induction l₁ generalizing s with
  | nil => exact path
  | cons y l ih =>
    rw [List.getLastD_cons]
    exact ih path.2.2

theorem exists_cut (member : x ∈ s :: l) : ∃ l₁ l₂, l = l₁ ++ l₂ ∧ l₁.getLastD s = x := by
  rcases List.mem_cons.mp member with rfl | inside
  · exact ⟨[], l, rfl, rfl⟩
  · obtain ⟨l₁, l₂, rfl⟩ := List.append_of_mem inside
    exact ⟨l₁ ++ [x], l₂, by simp, by simp⟩

/-- The links determine the elements up to the first time the end is met. -/
theorem Walk.unique {l' : List α} (path : Walk next prev s l e) (other : Walk next prev s l' e)
    (notIn : e ∉ l) (notIn' : e ∉ l') : l = l' := by
  induction l generalizing s l' with
  | nil =>
    cases l' with
    | nil => rfl
    | cons y l' => exact absurd (path.1.symm.trans other.1) fun same => notIn' (by simp [same])
  | cons x l ih =>
    cases l' with
    | nil => exact absurd (other.1.symm.trans path.1) fun same => notIn (by simp [same])
    | cons y l' =>
      obtain rfl : x = y := path.1.symm.trans other.1
      rw [ih path.2.2 other.2.2 (fun mem => notIn (by simp [mem])) fun mem =>
        notIn' (by simp [mem])]

theorem Walk.around (path : Walk next prev s (l₁ ++ x :: l₂) e) :
    prev x = l₁.getLastD s ∧ next x = l₂.headD e := by
  have before := path.joint.2
  rw [List.append_cons] at path
  have after := path.joint.1
  exact ⟨before, by simpa using after⟩

/-- An element of a path without repetitions is not linked to itself. -/
theorem Walk.next_ne (path : Walk next prev s l e) (targets : (l ++ [e]).Nodup) (member : x ∈ l) :
    next x ≠ x := by
  obtain ⟨l₁, l₂, rfl⟩ := List.append_of_mem member
  have after := headD_mem l₂ e
  rw [path.around.2]
  intro same
  rw [same] at after
  simp only [List.append_assoc, List.cons_append, List.nodup_append, List.nodup_cons] at targets
  exact targets.2.1.1 after

/-- An element of a path without repetitions comes first just if the start is linked to it. -/
theorem Walk.first_iff (path : Walk next prev s (l₁ ++ x :: l₂) e)
    (sources : (s :: (l₁ ++ x :: l₂)).Nodup) : next s = x ↔ prev x = s := by
  cases l₁ with
  | nil => exact iff_of_true path.1 path.2.1
  | cons y l =>
    have last := getLastD_mem l y
    rw [path.1, path.around.1, List.getLastD_cons]
    simp only [List.cons_append, List.nodup_cons, List.mem_cons, List.mem_append, not_or]
      at sources last
    apply iff_of_false
    · rintro rfl
      exact sources.2.1.2.1 rfl
    · intro same
      rw [same] at last
      exact last.elim sources.1.1 sources.1.2.1

theorem Walk.last_iff (path : Walk next prev s (l₁ ++ x :: l₂) e)
    (targets : (l₁ ++ x :: l₂ ++ [e]).Nodup) : prev e = x ↔ next x = e := by
  have back := path.reverse
  rw [List.reverse_append, List.reverse_cons, List.append_assoc] at back
  apply back.first_iff
  rw [← List.nodup_reverse] at targets
  simpa using targets

/-- In a sorted list the last element is above all others. -/
theorem rel_getLastD {r : α → α → Prop} (refl : ∀ c, r c c) (sorted : (s :: l).Pairwise r) :
    ∀ c ∈ s :: l, r c (l.getLastD s) := by
  induction l generalizing s with
  | nil =>
    intro c member
    rw [List.mem_singleton.mp member]
    exact refl s
  | cons y l ih =>
    intro c member
    rw [List.getLastD_cons]
    rcases List.mem_cons.mp member with rfl | later
    · exact List.rel_of_pairwise_cons sorted (getLastD_mem l y)
    · exact ih (List.pairwise_cons.mp sorted).2 c later

/-! ## Paths that grow -/

section Order

variable [LinearOrder α]

/-- A path whose steps all go up is increasing. -/
theorem Walk.increasing (path : Walk next prev s l e) (grows : ∀ c ∈ s :: l, c < next c) :
    (s :: (l ++ [e])).Pairwise (· < ·) := by
  induction l generalizing s with
  | nil =>
    have up := grows s (by simp)
    rw [path.1] at up
    simpa using up
  | cons y l ih =>
    have up := grows s (by simp)
    rw [path.1] at up
    have rest := ih path.2.2 fun c member => grows c (List.mem_cons_of_mem s member)
    apply List.pairwise_cons.mpr
    constructor
    · intro c member
      rcases List.mem_cons.mp member with rfl | later
      · exact up
      · exact up.trans (List.rel_of_pairwise_cons rest later)
    · exact rest

/-- Between two neighbours of an increasing path there is no other element. -/
theorem not_mem_between (sorted : (s :: (l₁ ++ l₂ ++ [e])).Pairwise (· < ·))
    (above : l₁.getLastD s < x) (below : x < l₂.headD e) : x ∉ s :: (l₁ ++ l₂ ++ [e]) := by
  rw [List.append_assoc, ← List.cons_append] at sorted ⊢
  obtain ⟨front, back, _⟩ := List.pairwise_append.mp sorted
  intro member
  rcases List.mem_append.mp member with early | late
  · have largest := rel_getLastD le_refl (front.imp le_of_lt) x early
    exact absurd above (not_lt.mpr largest)
  · cases l₂ with
    | nil =>
      rw [List.mem_singleton.mp late] at below
      exact lt_irrefl e below
    | cons y l =>
      rcases List.mem_cons.mp late with rfl | later
      · exact lt_irrefl x below
      · exact lt_asymm below (List.rel_of_pairwise_cons back later)

end Order

/-! ## Bounded computations -/

/-- A bounded computation returns nothing but `out`, and returns it from the bound `n` on. -/
structure Settles {β : Type*} (f : Nat → Option β) (n : Nat) (out : β) : Prop where
  only : ∀ fuel result, f fuel = some result → result = out
  enough : ∀ fuel, n ≤ fuel → f fuel = some out

namespace Settles

variable {β γ : Type*} {f : Nat → Option β} {n : Nat} {out : β}

theorem now (n : Nat) (out : β) : Settles (fun _ => some out) n out :=
  ⟨fun _ _ same => (Option.some.inj same).symm, fun _ _ => rfl⟩

theorem later {f' : Nat → Option β} (settles : Settles f n out) (zero : f' 0 = none)
    (succ : ∀ fuel, f' (fuel + 1) = f fuel) : Settles f' (n + 1) out := by
  constructor
  · intro fuel result returned
    cases fuel with
    | zero => simp [zero] at returned
    | succ fuel => exact settles.only fuel result ((succ fuel).symm.trans returned)
  · intro fuel large
    cases fuel with
    | zero => contradiction
    | succ fuel => exact (succ fuel).trans (settles.enough fuel (Nat.le_of_succ_le_succ large))

theorem mono {m : Nat} (settles : Settles f n out) (large : n ≤ m) : Settles f m out :=
  ⟨settles.only, fun fuel enough => settles.enough fuel (large.trans enough)⟩

theorem map (settles : Settles f n out) (g : β → γ) :
    Settles (fun fuel => (f fuel).map g) n (g out) := by
  constructor
  · intro fuel result returned
    obtain ⟨found, there, rfl⟩ := Option.map_eq_some_iff.mp returned
    rw [settles.only fuel found there]
  · intro fuel large
    rw [settles.enough fuel large, Option.map_some]

theorem bind {g : Nat → β → Option γ} {final : γ} (settles : Settles f n out)
    (next : Settles (fun fuel => g fuel out) n final) :
    Settles (fun fuel => (f fuel).bind (g fuel)) n final := by
  constructor
  · intro fuel result returned
    obtain ⟨found, there, onward⟩ := Option.bind_eq_some_iff.mp returned
    rw [settles.only fuel found there] at onward
    exact next.only fuel result onward
  · intro fuel large
    rw [settles.enough fuel large]
    exact next.enough fuel large

end Settles

/-! ## Searching along a path -/

/-- Follow `step` until the test succeeds, for at most `fuel` elements. -/
def seek (step : α → α) (stop : α → Bool) : Nat → α → Option α
  | 0, _ => none
  | fuel + 1, x => if stop x then some x else seek step stop fuel (step x)

/-- The first element from `x` on for which the test succeeds. -/
def FirstAt (step : α → α) (stop : α → Bool) (x y : α) : Prop :=
  ∃ k, step^[k] x = y ∧ stop y = true ∧ ∀ j < k, stop (step^[j] x) = false

theorem seek_firstAt {step : α → α} {stop : α → Bool} {fuel : Nat} {y : α}
    (found : seek step stop fuel x = some y) : FirstAt step stop x y := by
  induction fuel generalizing x with
  | zero => cases found
  | succ fuel ih =>
    rw [seek] at found
    split_ifs at found with here
    · obtain rfl := Option.some.inj found
      exact ⟨0, rfl, here, nofun⟩
    · obtain ⟨k, reached, halts, earlier⟩ := ih found
      refine ⟨k + 1, reached, halts, fun j before => ?_⟩
      cases j with
      | zero => exact Bool.eq_false_of_not_eq_true here
      | succ j => exact earlier j (Nat.lt_of_succ_lt_succ before)

theorem FirstAt.unique {step : α → α} {stop : α → Bool} {y z : α} (first : FirstAt step stop x y)
    (other : FirstAt step stop x z) : y = z := by
  obtain ⟨k, rfl, here, before⟩ := first
  obtain ⟨m, rfl, there, earlier⟩ := other
  rcases Nat.lt_trichotomy k m with less | rfl | more
  · exact absurd here (by rw [earlier k less]; decide)
  · rfl
  · exact absurd there (by rw [before m more]; decide)

theorem seek_here {step : α → α} {stop : α → Bool} (found : stop x = true) :
    Settles (fun fuel => seek step stop fuel x) 1 x :=
  (Settles.now 0 x).later rfl fun _ => if_pos found

theorem seek_on {step : α → α} {stop : α → Bool} {y : α} {n : Nat} (fails : stop x = false)
    (rest : Settles (fun fuel => seek step stop fuel (step x)) n y) :
    Settles (fun fuel => seek step stop fuel x) (n + 1) y :=
  rest.later rfl fun _ => if_neg (by simp [fails])

/-- A search does not leave an element that is linked to itself. -/
theorem seek_trapped {step : α → α} {stop : α → Bool} (trapped : step x = x)
    (fails : stop x = false) (fuel : Nat) : seek step stop fuel x = none := by
  induction fuel with
  | zero => rfl
  | succ fuel ih =>
    rw [seek, if_neg (by simp [fails]), trapped]
    exact ih

/-- A search along a path whose end passes the test ends at the first element that does. -/
theorem Walk.seek_next (stop : α → Bool) (path : Walk next prev s l e) (halts : stop e = true) :
    ∃ l₁ l₂, l = l₁ ++ l₂ ∧ (∀ y ∈ l₁, stop y = false) ∧ stop (l₂.headD e) = true ∧
      Settles (fun fuel => seek next stop fuel (l.headD e)) (l.length + 1) (l₂.headD e) := by
  induction l generalizing s with
  | nil => exact ⟨[], [], rfl, by simp, halts, seek_here halts⟩
  | cons y l ih =>
    cases found : stop y with
    | true =>
      have here : Settles (fun fuel => seek next stop fuel y) 1 y := seek_here found
      exact ⟨[], y :: l, rfl, by simp, found, here.mono (Nat.le_add_left 1 _)⟩
    | false =>
      obtain ⟨l₁, l₂, split, before, there, rest⟩ := ih path.2.2
      rw [← path.2.2.next_start] at rest
      refine ⟨y :: l₁, l₂, by rw [split, List.cons_append], ?_, there, seek_on found rest⟩
      exact List.forall_mem_cons.mpr ⟨found, before⟩

/-- A search back along a path whose start passes the test ends at the last element that
does. -/
theorem Walk.seek_prev (stop : α → Bool) (path : Walk next prev s l e) (halts : stop s = true) :
    ∃ l₁ l₂, l = l₁ ++ l₂ ∧ (∀ y ∈ l₂, stop y = false) ∧ stop (l₁.getLastD s) = true ∧
      Settles (fun fuel => seek prev stop fuel (l.getLastD s)) (l.length + 1)
        (l₁.getLastD s) := by
  have turn (l : List α) : l.headD s = l.reverse.getLastD s := by
    rw [List.headD_eq_head?_getD, List.getLastD_eq_getLast?, List.getLast?_reverse]
  obtain ⟨r₁, r₂, split, before, there, sought⟩ := path.reverse.seek_next stop halts
  rw [turn] at there
  rw [turn, turn, List.reverse_reverse, List.length_reverse] at sought
  refine ⟨r₂.reverse, r₁.reverse, ?_, ?_, there, sought⟩
  · rw [← List.reverse_append, ← split, List.reverse_reverse]
  · intro y member
    exact before y (List.mem_reverse.mp member)

variable [DecidableEq α]

/-! ## Putting in and taking out -/

/-- Putting an element in where a path is cut. -/
theorem Walk.insert (path : Walk next prev s (l₁ ++ l₂) e) (sources : (s :: (l₁ ++ l₂)).Nodup)
    (targets : (l₁ ++ l₂ ++ [e]).Nodup) (fresh : x ∉ s :: (l₁ ++ l₂)) (notEnd : x ≠ e) :
    Walk (Function.update (Function.update next (l₁.getLastD s) x) x (l₂.headD e))
      (Function.update (Function.update prev (l₂.headD e) x) x (l₁.getLastD s))
      s (l₁ ++ x :: l₂) e := by
  induction l₁ generalizing s with
  | nil =>
    have notStart : s ≠ x := fun same => fresh (by simp [same])
    refine ⟨?_, Function.update_self x _ _, ?_⟩
    · rw [Function.update_of_ne notStart]
      exact Function.update_self s _ _
    cases l₂ with
    | nil =>
      refine ⟨Function.update_self x _ _, ?_⟩
      rw [Function.update_of_ne notEnd.symm]
      exact Function.update_self e _ _
    | cons y l =>
      simp only [List.nil_append, List.nodup_cons, List.mem_cons, not_or] at sources targets fresh
      refine ⟨Function.update_self x _ _, ?_, path.2.2.congr ?_ ?_⟩
      · rw [Function.update_of_ne (Ne.symm fresh.2.1)]
        exact Function.update_self y _ _
      · intro c member
        have notNew : c ≠ x := by
          rintro rfl
          simp_all
        have notStart : c ≠ s := by
          rintro rfl
          simp_all
        rw [Function.update_of_ne notNew]
        exact Function.update_of_ne notStart _ _
      · intro c member
        have notNew : c ≠ x := by
          rintro rfl
          simp_all
        have notFirst : c ≠ y := by
          rintro rfl
          simp_all
        rw [Function.update_of_ne notNew]
        exact Function.update_of_ne notFirst _ _
  | cons y l ih =>
    have last := getLastD_mem l y
    have first := headD_mem l₂ e
    rw [List.getLastD_cons]
    simp only [List.cons_append, List.nodup_cons, List.mem_cons, List.mem_append, not_or,
      List.append_assoc] at sources targets fresh last first
    have notStart : s ≠ l.getLastD y := by
      rintro same
      rw [← same] at last
      simp_all
    have notFirst : y ≠ l₂.headD e := by
      intro same
      rw [← same] at first
      simp_all
    refine ⟨?_, ?_, ih path.2.2 ?_ ?_ ?_⟩
    · rw [Function.update_of_ne (Ne.symm fresh.1), Function.update_of_ne notStart]
      exact path.1
    · rw [Function.update_of_ne (Ne.symm fresh.2.1), Function.update_of_ne notFirst]
      exact path.2.1
    · simp_all
    · simp_all
    · simp_all

/-- Taking an element out. -/
theorem Walk.remove (path : Walk next prev s (l₁ ++ x :: l₂) e)
    (sources : (s :: (l₁ ++ x :: l₂)).Nodup) (targets : (l₁ ++ x :: l₂ ++ [e]).Nodup) :
    Walk (Function.update next (prev x) (next x)) (Function.update prev (next x) (prev x))
      s (l₁ ++ l₂) e := by
  rw [path.around.1, path.around.2]
  induction l₁ generalizing s with
  | nil =>
    cases l₂ with
    | nil => exact ⟨Function.update_self s _ _, Function.update_self e _ _⟩
    | cons y l =>
      simp only [List.nil_append, List.nodup_cons, List.mem_cons, not_or, List.cons_append]
        at sources targets
      refine ⟨Function.update_self s _ _, Function.update_self y _ _, path.2.2.2.2.congr ?_ ?_⟩
      · intro c member
        have notStart : c ≠ s := by
          rintro rfl
          simp_all
        exact Function.update_of_ne notStart _ _
      · intro c member
        have notFirst : c ≠ y := by
          rintro rfl
          simp_all
        exact Function.update_of_ne notFirst _ _
  | cons y l ih =>
    have last := getLastD_mem l y
    have first := headD_mem l₂ e
    rw [List.getLastD_cons]
    simp only [List.cons_append, List.nodup_cons, List.mem_cons, List.mem_append, not_or,
      List.append_assoc] at sources targets last first
    have notStart : s ≠ l.getLastD y := by
      intro same
      rw [← same] at last
      simp_all
    have notFirst : y ≠ l₂.headD e := by
      intro same
      rw [← same] at first
      simp_all
    refine ⟨?_, ?_, ih path.2.2 ?_ ?_⟩
    · rw [Function.update_of_ne notStart]
      exact path.1
    · rw [Function.update_of_ne notFirst]
      exact path.2.1
    · simp_all
    · simp_all

/-- A path with its last element linked to another end. -/
theorem Walk.redirect (path : Walk next prev s l e) (e' : α) (sources : (s :: l).Nodup)
    (fresh : e' ∉ l) :
    Walk (Function.update next (l.getLastD s) e') (Function.update prev e' (l.getLastD s))
      s l e' := by
  induction l generalizing s with
  | nil => exact ⟨Function.update_self s _ _, Function.update_self e' _ _⟩
  | cons y l ih =>
    have last := getLastD_mem l y
    have notStart : s ≠ l.getLastD y := by
      intro same
      rw [← same] at last
      exact (List.nodup_cons.mp sources).1 last
    rw [List.getLastD_cons]
    refine ⟨?_, ?_, ih path.2.2 (List.nodup_cons.mp sources).2 ?_⟩
    · rw [Function.update_of_ne notStart]
      exact path.1
    · rw [Function.update_of_ne fun same => fresh (by simp [same])]
      exact path.2.1
    · intro later
      exact fresh (List.mem_cons_of_mem y later)

end Dmm.Linked
