import Mathlib

/-!
# Printing numbers

The two copies of `printint`, that of the kernel and that of the user library, and `atoi`.
-/

namespace Xv6.Util

inductive Base
  | dec
  | hex

def Base.val : Base → Nat
  | dec => 10
  | hex => 16

theorem Base.one_lt : ∀ b : Base, 1 < b.val
  | dec => Nat.lt_of_sub_eq_succ rfl
  | hex => Nat.lt_of_sub_eq_succ rfl

/-- The characters that the loop puts into `buf`, the last digit first. -/
def digitLoop {α : Type} (digits : Nat → α) (b : Base) (x : Nat) : List α :=
  if _h : x / b.val = 0 then [digits (x % b.val)]
  else digits (x % b.val) :: digitLoop digits b (x / b.val)
termination_by x
decreasing_by
  have hx := b.one_lt.trans_le (Nat.div_ne_zero_iff.1 _h).2
  exact Nat.div_lt_self (Nat.zero_lt_of_lt hx) b.one_lt

def kernelDigit (d : Nat) : Char := "0123456789abcdef".toList.getD d ' '

def userDigit (d : Nat) : Char := "0123456789ABCDEF".toList.getD d ' '

def kernelPrintint (xx : Int32) (base : Base) (sign : Bool) : List Char :=
  let sign := sign && decide (xx < 0)
  let x := if sign then (-xx).toUInt32 else xx.toUInt32
  let buf := digitLoop kernelDigit base x.toNat
  (if sign then buf ++ ['-'] else buf).reverse

def userPrintint (xx : Int32) (base : Base) (sgn : Bool) : List Char :=
  let r := if sgn && decide (xx < 0) then (true, (-xx).toUInt32) else (false, xx.toUInt32)
  let buf := digitLoop userDigit base r.2.toNat
  (if r.1 then buf ++ ['-'] else buf).reverse

def atoi : List Char → Int32 → Int32
  | [], n => n
  | c :: s, n =>
    if '0' ≤ c ∧ c ≤ '9' then atoi s (n * 10 + Int32.ofNat c.toNat - 48) else n

def printed (xx : Int32) (sign : Bool) : Int := if sign then xx.toInt else xx.toUInt32.toNat

/-- `out` is the numeral of `v` in base `b`, with the digits `ds`. -/
structure Numeral (b : Base) (v : Int) (ds : List Nat) (out : List Char) : Prop where
  text : out = (if v < 0 then ['-'] else []) ++ ds.map userDigit
  digits : ∀ d ∈ ds, d < b.val
  leading : ds ≠ [] ∧ (ds.head? = some 0 → ds = [0])
  value : ds.foldl (fun n d => n * b.val + d) 0 = v.natAbs

/-! ## The loop -/

theorem digitLoop_eq_map {α : Type} (digits : Nat → α) (b : Base) (x : Nat) :
    digitLoop digits b x = (digitLoop id b x).map digits := by
  fun_induction digitLoop id b x with
  | case1 x h => rw [digitLoop, dif_pos h]; rfl
  | case2 x h ih => rw [digitLoop, dif_neg h, ih]; rfl

theorem digitLoop_ne_nil {α : Type} (digits : Nat → α) (b : Base) (x : Nat) :
    digitLoop digits b x ≠ [] := by
  rw [digitLoop]
  split_ifs <;> exact List.cons_ne_nil _ _

theorem digitLoop_lt (b : Base) (x : Nat) : ∀ d ∈ digitLoop id b x, d < b.val := by
  have hmod (x : Nat) : x % b.val < b.val := Nat.mod_lt _ (Nat.zero_lt_of_lt b.one_lt)
  fun_induction digitLoop id b x with
  | case1 x h => exact List.forall_mem_cons.2 ⟨hmod x, List.forall_mem_nil _⟩
  | case2 x h ih => exact List.forall_mem_cons.2 ⟨hmod x, ih⟩

theorem digitLoop_value (b : Base) (x : Nat) :
    (digitLoop id b x).foldr (fun d n => n * b.val + d) 0 = x := by
  fun_induction digitLoop id b x with
  | case1 x h =>
    have hdiv := Nat.div_add_mod x b.val
    simpa [h] using hdiv
  | case2 x h ih => rw [List.foldr_cons, ih, Nat.mul_comm, id, Nat.div_add_mod]

theorem digitLoop_last (b : Base) (x : Nat) (h0 : (digitLoop id b x).getLast? = some 0) :
    x = 0 := by
  fun_induction digitLoop id b x with
  | case1 x h =>
    rw [← Nat.div_add_mod x b.val, h, Nat.mul_zero, Nat.zero_add]
    exact Option.some.inj h0
  | case2 x h ih =>
    obtain ⟨d, l, hl⟩ := List.exists_cons_of_ne_nil (digitLoop_ne_nil id b (x / b.val))
    rw [hl, List.getLast?_cons_cons, ← hl] at h0
    exact absurd (ih h0) h

theorem digitLoop_length (b : Base) (x k : Nat) (hx : x < b.val ^ (k + 1)) :
    (digitLoop id b x).length ≤ k + 1 := by
  fun_induction digitLoop id b x generalizing k with
  | case1 x h => exact Nat.succ_le_succ (Nat.zero_le _)
  | case2 x h ih =>
    cases k with
    | zero => exact absurd (Nat.div_eq_of_lt (by simpa using hx)) h
    | succ k =>
      exact Nat.succ_le_succ (ih k (Nat.div_lt_of_lt_mul (by rwa [← Nat.pow_succ'])))

theorem digits_leading (b : Base) (x : Nat)
    (h : (digitLoop id b x).reverse.head? = some 0) : (digitLoop id b x).reverse = [0] := by
  rw [List.head?_reverse] at h
  rw [digitLoop_last b x h, digitLoop, dif_pos (Nat.zero_div _), Nat.zero_mod]
  rfl

/-! ## The numerals -/

theorem toNat_toUInt32 (xx : Int32) : (xx.toUInt32.toNat : Int) = xx.toInt % 2 ^ 32 := by
  have hlt := xx.toBitVec.isLt
  have hint : xx.toInt = (xx.toBitVec.toNat : Int).bmod (2 ^ 32) :=
    BitVec.toInt_eq_toNat_bmod _
  have hnat : xx.toUInt32.toNat = xx.toBitVec.toNat := rfl
  rw [hint, hnat, Int.bmod_def]
  omega

/-- The sign is printed just for a negative number, also for the least one, which is its own
negative. -/
theorem word_eq (xx : Int32) (sign : Bool) :
    ((sign && decide (xx < 0)) = true ↔ printed xx sign < 0) ∧
    (if (sign && decide (xx < 0)) = true then (-xx).toUInt32 else xx.toUInt32).toNat =
      (printed xx sign).natAbs := by
  have hlo := xx.le_toInt
  have hhi := xx.toInt_lt
  have hword := toNat_toUInt32 xx
  have hneg := toNat_toUInt32 (-xx)
  have hlt : xx < 0 ↔ xx.toInt < 0 := Int32.lt_iff_toInt_lt
  rw [Int32.toInt_neg, Int.bmod_def] at hneg
  cases sign with
  | false => simp [printed]
  | true =>
    by_cases h : xx < 0
    · have h0 := hlt.1 h
      simp only [printed, h, decide_true, Bool.and_self, if_true, h0, true_and]
      omega
    · have h0 := mt hlt.2 h
      simp only [printed, h, decide_false, Bool.and_false, if_false, if_true, h0,
        Bool.false_eq_true, true_and]
      omega

theorem reverse_sign {α : Type} (neg : Bool) (c : α) (buf : List α) :
    (if neg then buf ++ [c] else buf).reverse = (if neg then [c] else []) ++ buf.reverse := by
  cases neg <;> simp

def numeral (b : Base) (v : Int) : List Nat := (digitLoop id b v.natAbs).reverse

theorem kernelPrintint_eq (xx : Int32) (b : Base) (sign : Bool) :
    kernelPrintint xx b sign = (if printed xx sign < 0 then ['-'] else []) ++
      (numeral b (printed xx sign)).map kernelDigit := by
  obtain ⟨hsign, hword⟩ := word_eq xx sign
  rw [kernelPrintint, reverse_sign, hword, if_congr hsign rfl rfl, digitLoop_eq_map, numeral,
    List.map_reverse]

theorem userPrintint_eq (xx : Int32) (b : Base) (sgn : Bool) :
    userPrintint xx b sgn = (if printed xx sgn < 0 then ['-'] else []) ++
      (numeral b (printed xx sgn)).map userDigit := by
  obtain ⟨hsign, hword⟩ := word_eq xx sgn
  have hpair : (if sgn && decide (xx < 0) then (true, (-xx).toUInt32) else (false, xx.toUInt32)) =
      (sgn && decide (xx < 0), if sgn && decide (xx < 0) then (-xx).toUInt32 else xx.toUInt32) := by
    cases sgn && decide (xx < 0) <;> rfl
  rw [userPrintint, hpair, reverse_sign, hword, if_congr hsign rfl rfl, digitLoop_eq_map, numeral,
    List.map_reverse]

theorem toLower_userDigit : ∀ d < 16, (userDigit d).toLower = kernelDigit d := by
  decide

theorem userDigit_toNat : ∀ d < 10, ('0' ≤ userDigit d ∧ userDigit d ≤ '9') ∧
    (userDigit d).toNat = d + 48 := by
  decide

theorem atoi_digits (ds : List Nat) (hds : ∀ d ∈ ds, d < 10) (n : Nat) :
    atoi (ds.map userDigit) (Int32.ofNat n) =
      Int32.ofNat (ds.foldl (fun n d => n * 10 + d) n) := by
  induction ds generalizing n with
  | nil => rfl
  | cons d ds ih =>
    obtain ⟨hd, hds⟩ := List.forall_mem_cons.1 hds
    obtain ⟨hdigit, hchar⟩ := userDigit_toNat d hd
    have hstep : Int32.ofNat n * 10 + Int32.ofNat (d + 48) - 48 = Int32.ofNat (n * 10 + d) := by
      rw [Int32.ofNat_add d, ← Int32.add_assoc, Int32.ofNat_add, Int32.ofNat_mul]
      exact Int32.add_sub_cancel _ _
    rw [List.map_cons, atoi, if_pos hdigit, hchar, hstep, ih hds, List.foldl_cons]

theorem Base.val_le (b : Base) : b.val ≤ 16 := by
  cases b <;> decide

theorem printed_lt (xx : Int32) (sign : Bool) : (printed xx sign).natAbs < 2 ^ 32 := by
  rw [← (word_eq xx sign).2]
  exact UInt32.toNat_lt _

/-- Both copies print the same canonical numeral up to the case of its letters, it has its place
in the buffer, and `atoi` reads it back. -/
theorem printint_numeral (xx : Int32) (b : Base) (sign : Bool) :
    (∃ ds, Numeral b (printed xx sign) ds (userPrintint xx b sign)) ∧
    kernelPrintint xx b sign = (userPrintint xx b sign).map Char.toLower ∧
    (userPrintint xx b sign).length ≤ 16 ∧
    (b = .dec → 0 ≤ xx.toInt → atoi (userPrintint xx b sign) 0 = xx) := by
  have hlt : ∀ d ∈ numeral b (printed xx sign), d < b.val := by
    intro d hd
    exact digitLoop_lt b _ d (List.mem_reverse.1 hd)
  have hvalue : (numeral b (printed xx sign)).foldl (fun n d => n * b.val + d) 0 =
      (printed xx sign).natAbs := by
    rw [numeral, List.foldl_reverse, digitLoop_value]
  refine ⟨⟨numeral b (printed xx sign), userPrintint_eq xx b sign, hlt, ?_, hvalue⟩, ?_, ?_, ?_⟩
  · exact ⟨List.reverse_ne_nil_iff.2 (digitLoop_ne_nil _ _ _), digits_leading b _⟩
  · rw [kernelPrintint_eq, userPrintint_eq, List.map_append, List.map_map]
    congr 1
    · split_ifs <;> rfl
    · apply List.map_congr_left
      intro d hd
      exact (toLower_userDigit d ((hlt d hd).trans_le b.val_le)).symm
  · have hbound : (printed xx sign).natAbs < b.val ^ (9 + 1) := by
      refine (printed_lt xx sign).trans_le ?_
      cases b <;> decide
    have hlen := digitLoop_length b _ 9 hbound
    rw [userPrintint_eq, List.length_append, List.length_map, numeral, List.length_reverse]
    split_ifs <;> simp only [List.length_cons, List.length_nil] <;> omega
  · rintro rfl h0
    have hval : printed xx sign = xx.toInt := by
      rw [printed, toNat_toUInt32, Int.emod_eq_of_lt h0 (xx.toInt_lt.trans (by decide)), ite_self]
    rw [userPrintint_eq, hval, if_neg (not_lt.2 h0), List.nil_append]
    rw [hval] at hlt hvalue
    have hread := atoi_digits _ hlt 0
    rw [show (fun n d => n * 10 + d) = fun n d => n * Base.dec.val + d from rfl, hvalue] at hread
    calc atoi _ 0 = Int32.ofNat xx.toInt.natAbs := hread
      _ = Int32.ofInt (xx.toInt.natAbs : Int) := Int32.ofInt_eq_ofNat.symm
      _ = xx := by rw [Int.natAbs_of_nonneg h0, Int32.ofInt_toInt]

end Xv6.Util
