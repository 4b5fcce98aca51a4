import Mathlib

/-!
# The matcher of `grep`

`match`, `matchhere` and `matchstar` of `grep.c`, on strings without their terminators, against
what a pattern means.
-/

namespace Xv6.User

def caret : UInt8 := 94

def star : UInt8 := 42

def dollar : UInt8 := 36

def dot : UInt8 := 46

/-- `matchstar`: search for `c*re` at beginning of text, where `here` searches for `re`. -/
def matchstar (here : List UInt8 → Bool) (c : UInt8) : List UInt8 → Bool
  | [] => here []
  | t :: text => here (t :: text) || ((t = c || c = dot) && matchstar here c text)

def matchhere : List UInt8 → List UInt8 → Bool
  | [], _ => true
  | [c], text =>
    if c = dollar then text.isEmpty
    else match text with
      | [] => false
      | t :: _ => c = dot || c = t
  | c :: r :: re, text =>
    if r = star then matchstar (matchhere re) c text
    else match text with
      | [] => false
      | t :: text => (c = dot || c = t) && matchhere (r :: re) text

def matchFrom (re : List UInt8) : List UInt8 → Bool
  | [] => matchhere re []
  | t :: text => matchhere re (t :: text) || matchFrom re text

def grepMatch (re text : List UInt8) : Bool :=
  if re.head? = some caret then matchhere re.tail text else matchFrom re text

/-- The pattern matches the string, where `rest` follows it in the text. -/
inductive Denotes : List UInt8 → List UInt8 → List UInt8 → Prop
  | nil (rest : List UInt8) : Denotes [] [] rest
  | star {c : UInt8} {re s s' rest : List UInt8} (hs : ∀ x ∈ s, x = c ∨ c = dot)
      (h : Denotes re s' rest) : Denotes (c :: star :: re) (s ++ s') rest
  | dollar : Denotes [dollar] [] []
  | char {c x : UInt8} {re s rest : List UInt8} (hstar : re.head? ≠ some User.star)
      (hend : ¬ (c = User.dollar ∧ re = [])) (hc : c = dot ∨ c = x) (h : Denotes re s rest) :
      Denotes (c :: re) (x :: s) rest

theorem matchstar_iff {here : List UInt8 → Bool} {c : UInt8} {text : List UInt8} :
    matchstar here c text = true ↔
      ∃ s rest, text = s ++ rest ∧ (∀ x ∈ s, x = c ∨ c = dot) ∧ here rest = true := by
  induction text with
  | nil => simp [matchstar]
  | cons t text ih =>
    rw [matchstar, Bool.or_eq_true, Bool.and_eq_true, ih]
    constructor
    · rintro (h | ⟨ht, s, rest, rfl, hs, h⟩)
      · exact ⟨[], t :: text, rfl, by simp, h⟩
      · refine ⟨t :: s, rest, rfl, ?_, h⟩
        rw [List.forall_mem_cons]
        exact ⟨by simpa using ht, hs⟩
    · rintro ⟨s, rest, htext, hs, h⟩
      cases s with
      | nil =>
        rw [htext]
        exact .inl h
      | cons x s =>
        obtain ⟨rfl, rfl⟩ : t = x ∧ text = s ++ rest := by simpa using htext
        rw [List.forall_mem_cons] at hs
        exact .inr ⟨by simpa using hs.1, s, rest, rfl, hs.2, h⟩

theorem denotes_char_iff {c : UInt8} {re text : List UInt8} (hstar : re.head? ≠ some star)
    (hend : ¬ (c = dollar ∧ re = [])) :
    (∃ s rest, text = s ++ rest ∧ Denotes (c :: re) s rest) ↔
      ∃ t text', text = t :: text' ∧ (c = dot ∨ c = t) ∧
        ∃ s rest, text' = s ++ rest ∧ Denotes re s rest := by
  constructor
  · rintro ⟨s, rest, rfl, h⟩
    cases h with
    | star hs h => exact absurd rfl hstar
    | dollar => exact absurd ⟨rfl, rfl⟩ hend
    | char _ _ hc h => exact ⟨_, _, rfl, hc, _, rest, rfl, h⟩
  · rintro ⟨t, _, rfl, hc, s, rest, rfl, h⟩
    exact ⟨t :: s, rest, rfl, .char hstar hend hc h⟩

theorem denotes_star_iff {c : UInt8} {re text : List UInt8} :
    (∃ s rest, text = s ++ rest ∧ Denotes (c :: star :: re) s rest) ↔
      ∃ s text', text = s ++ text' ∧ (∀ x ∈ s, x = c ∨ c = dot) ∧
        ∃ s' rest, text' = s' ++ rest ∧ Denotes re s' rest := by
  constructor
  · rintro ⟨_, rest, rfl, h⟩
    cases h with
    | star hs h => exact ⟨_, _, List.append_assoc .., hs, _, rest, rfl, h⟩
    | char hstar _ _ _ => exact absurd rfl hstar
  · rintro ⟨s, _, rfl, hs, s', rest, rfl, h⟩
    exact ⟨s ++ s', rest, (List.append_assoc ..).symm, .star hs h⟩

theorem matchhere_iff (re text : List UInt8) : matchhere re text = true ↔
    ∃ s rest, text = s ++ rest ∧ Denotes re s rest := by
  induction re using List.twoStepInduction generalizing text with
  | nil => exact ⟨fun _ => ⟨[], text, rfl, .nil text⟩, fun _ => rfl⟩
  | singleton c =>
    rw [matchhere.eq_def]
    dsimp only
    split_ifs with hc
    · rw [List.isEmpty_iff, hc]
      constructor
      · rintro rfl
        exact ⟨[], [], rfl, .dollar⟩
      · rintro ⟨s, rest, rfl, h⟩
        cases h with
        | dollar => rfl
        | char _ hend _ _ => exact absurd ⟨rfl, rfl⟩ hend
    · rw [denotes_char_iff (by simp) (fun h => hc h.1)]
      cases text with
      | nil => simp
      | cons t text =>
        simp only [Bool.or_eq_true, decide_eq_true_eq]
        constructor
        · exact fun h => ⟨t, text, rfl, h, [], text, rfl, .nil text⟩
        · rintro ⟨_, _, htext, h, _⟩
          rw [(List.cons.inj htext).1]
          exact h
  | cons_cons c r re ih ih' =>
    rw [matchhere.eq_def]
    dsimp only
    split_ifs with hr
    · rw [matchstar_iff, hr, denotes_star_iff]
      simp only [ih]
    · rw [denotes_char_iff (by simpa using hr) (by simp)]
      cases text with
      | nil => simp
      | cons t text =>
        simp only [Bool.and_eq_true, Bool.or_eq_true, decide_eq_true_eq, ih']
        constructor
        · exact fun h => ⟨t, text, rfl, h⟩
        · rintro ⟨_, _, htext, h⟩
          obtain ⟨rfl, rfl⟩ := List.cons.inj htext
          exact h

theorem matchFrom_iff (re text : List UInt8) : matchFrom re text = true ↔
    ∃ front s rest, text = front ++ (s ++ rest) ∧ Denotes re s rest := by
  induction text with
  | nil =>
    rw [matchFrom, matchhere_iff]
    simp
  | cons t text ih =>
    rw [matchFrom, Bool.or_eq_true, matchhere_iff, ih]
    constructor
    · rintro (⟨s, rest, h, hd⟩ | ⟨front, s, rest, rfl, hd⟩)
      · exact ⟨[], s, rest, h, hd⟩
      · exact ⟨t :: front, s, rest, rfl, hd⟩
    · rintro ⟨front, s, rest, htext, hd⟩
      cases front with
      | nil => exact .inl ⟨s, rest, htext, hd⟩
      | cons x front => exact .inr ⟨front, s, rest, (List.cons.inj htext).2, hd⟩

/-- `match` finds out whether the pattern matches a part of the text, which is at its beginning
if the pattern begins with `^`. -/
theorem grepMatch_iff (re text : List UInt8) : grepMatch re text = true ↔
    ∃ front s rest, text = front ++ (s ++ rest) ∧
      (if re.head? = some caret then front = [] ∧ Denotes re.tail s rest else Denotes re s rest) := by
  unfold grepMatch
  split_ifs
  · rw [matchhere_iff]
    simp
  · exact matchFrom_iff re text

/-- `a*b` is found in `xaab`, and `^a*b` is not. -/
example : grepMatch [97, 42, 98] [120, 97, 97, 98] = true ∧
    grepMatch [94, 97, 42, 98] [120, 97, 97, 98] = false := by decide

end Xv6.User
