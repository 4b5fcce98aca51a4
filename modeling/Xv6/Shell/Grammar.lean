import Xv6.Shell.Parse

/-!
# The grammar of the shell

The tokens of a line, the grammar they are to follow, and the command that a derivation
stands for.  The parser looks at the line only through its tokens.
-/

namespace Xv6.Shell

/-! ## Tokens -/

inductive Token
  | sym (x : Sym)
  /-- A word, with where it starts and ends. -/
  | word (q eq : Nat)
  deriving DecidableEq

def lexLoop (es : Nat) : Nat → Cursor → List Token
  | 0, _ => []
  | n + 1, s =>
    match gettoken s with
    | (.eof, _, _, _) => []
    | (.sym x, _, _, s) => .sym x :: lexLoop es n s
    | (.word, q, eq, s) => .word (off es q) (off es eq) :: lexLoop es n s

/-- The tokens of a text; each takes at least one character. -/
def lex (es : Nat) (s : Cursor) : List Token := lexLoop es s.length s

def tokens (buf : List UInt8) : List Token := lex (text buf).length (text buf)

def Sym.char : Sym → UInt8
  | .bar => ch '|'
  | .lparen => ch '('
  | .rparen => ch ')'
  | .semi => ch ';'
  | .amp => ch '&'
  | .lt => ch '<'
  | .gt => ch '>'
  | .append => ch '>'

/-- The tokens begin with a symbol that has one of these characters. -/
def starts (toks : List UInt8) : List Token → Bool
  | .sym x :: _ => toks.contains x.char
  | _ => false

theorem skip_skip (s : Cursor) : skip (skip s) = skip s :=
  List.dropWhile_idempotent (fun c => whitespace.contains c) s

theorem length_skip_le (s : Cursor) : (skip s).length ≤ s.length :=
  (List.dropWhile_suffix _).length_le

theorem skip_cons {s t : Cursor} {c : UInt8} (h : skip s = c :: t) :
    whitespace.contains c = false := by
  have hne : s.dropWhile (fun c => whitespace.contains c) ≠ [] := by
    change skip s ≠ []
    rw [h]
    exact List.cons_ne_nil c t
  have hhead := List.head_dropWhile_not (fun c => whitespace.contains c) hne
  have heq : (s.dropWhile fun c => whitespace.contains c).head hne = c := by
    have hs : s.dropWhile (fun c => whitespace.contains c) = c :: t := h
    simp only [hs, List.head_cons]
  rw [heq] at hhead
  simpa using hhead

theorem symbol_eq_some {c : UInt8} {x : Sym} (h : symbol c = some x) : x.char = c := by
  unfold symbol at h
  split_ifs at h with h₁ h₂ h₃ h₄ h₅ h₆ h₇
  all_goals
    obtain rfl := Option.some.inj h
    exact Eq.symm ‹c = _›

theorem symbol_eq_none {c : UInt8} (h : symbol c = none) : symbols.contains c = false := by
  unfold symbol at h
  split_ifs at h with h₁ h₂ h₃ h₄ h₅ h₆ h₇
  simp [symbols, h₁, h₂, h₃, h₄, h₅, h₆, h₇]

theorem scan_cons {c : UInt8} {s : Cursor} (hc : whitespace.contains c = false) :
    (scan (c :: s)).2.length < (c :: s).length ∧
      ((∃ x : Sym, (scan (c :: s)).1 = .sym x ∧ x.char = c) ∨
        (scan (c :: s)).1 = .word ∧ symbols.contains c = false) := by
  cases hx : symbol c with
  | none =>
    have hsym := symbol_eq_none hx
    have hscan : scan (c :: s) =
        (.word, s.dropWhile fun c => !whitespace.contains c && !symbols.contains c) := by
      have htest : (!whitespace.contains c && !symbols.contains c) = true := by
        rw [hc, hsym]
        rfl
      simp only [scan, hx, List.dropWhile_cons, htest, if_true]
    rw [hscan]
    refine ⟨?_, .inr ⟨rfl, hsym⟩⟩
    exact Nat.lt_succ_of_le (List.dropWhile_suffix _).length_le
  | some x =>
    have hchar := symbol_eq_some hx
    by_cases hgt : x = .gt
    · subst hgt
      have htail : s.tail.length ≤ s.length := by
        rw [List.length_tail]
        omega
      simp only [scan, hx]
      split_ifs
      · exact ⟨Nat.lt_succ_of_le htail, .inl ⟨.append, rfl, hchar⟩⟩
      · exact ⟨Nat.lt_succ_self _, .inl ⟨.gt, rfl, hchar⟩⟩
    · have hscan : scan (c :: s) = (.sym x, s) := by
        cases x <;> first | exact absurd rfl hgt | simp only [scan, hx]
      rw [hscan]
      exact ⟨Nat.lt_succ_self _, .inl ⟨x, rfl, hchar⟩⟩

theorem gettoken_skip (s : Cursor) : gettoken (skip s) = gettoken s := by
  simp only [gettoken, skip_skip]

theorem gettoken_length {s : Cursor} (h : (gettoken s).1 ≠ .eof) :
    (gettoken s).2.2.2.length < s.length := by
  have hskip := length_skip_le s
  cases hq : skip s with
  | nil => simp [gettoken, hq, scan] at h
  | cons c t =>
    have hlt := (scan_cons (s := t) (skip_cons hq)).1
    have hle := length_skip_le (scan (c :: t)).2
    simp only [gettoken, hq]
    rw [hq] at hskip
    omega

variable {es : Nat}

theorem lexLoop_congr (es : Nat) {n m : Nat} {s : Cursor} (hn : s.length ≤ n) (hm : s.length ≤ m) :
    lexLoop es n s = lexLoop es m s := by
  induction n generalizing m s with
  | zero =>
    obtain rfl : s = [] := List.length_eq_zero_iff.1 (by omega)
    cases m with
    | zero => rfl
    | succ m => rfl
  | succ n ih =>
    cases m with
    | zero =>
      obtain rfl : s = [] := List.length_eq_zero_iff.1 (by omega)
      rfl
    | succ m =>
      have hlt := gettoken_length (s := s)
      simp only [lexLoop]
      generalize gettoken s = g at hlt
      obtain ⟨tok, q, eq, rest⟩ := g
      cases tok with
      | eof => rfl
      | sym x =>
        have hrest : rest.length < s.length := hlt (by simp)
        simp only [ih (m := m) (s := rest) (by omega) (by omega)]
      | word =>
        have hrest : rest.length < s.length := hlt (by simp)
        simp only [ih (m := m) (s := rest) (by omega) (by omega)]

theorem lex_eq (s : Cursor) : lex es s =
    match gettoken s with
    | (.eof, _, _, _) => []
    | (.sym x, _, _, s) => .sym x :: lex es s
    | (.word, q, eq, s) => .word (off es q) (off es eq) :: lex es s := by
  have hlt := gettoken_length (s := s)
  have hfuel : lex es s = lexLoop es (s.length + 1) s :=
    lexLoop_congr es (Nat.le_refl _) (Nat.le_succ _)
  rw [hfuel, lexLoop]
  generalize gettoken s = g at hlt
  obtain ⟨tok, q, eq, rest⟩ := g
  cases tok with
  | eof => rfl
  | sym x =>
    have hrest : rest.length < s.length := hlt (by simp)
    simp only [lex, lexLoop_congr es (s := rest) (Nat.le_of_lt hrest) (Nat.le_refl _)]
  | word =>
    have hrest : rest.length < s.length := hlt (by simp)
    simp only [lex, lexLoop_congr es (s := rest) (Nat.le_of_lt hrest) (Nat.le_refl _)]

theorem lex_skip (s : Cursor) : lex es (skip s) = lex es s := by
  rw [lex_eq, gettoken_skip, ← lex_eq]

/-! ## The scanner on tokens -/

theorem gettoken_nil {s : Cursor} (h : lex es s = []) :
    ∃ q eq rest, gettoken s = (.eof, q, eq, rest) ∧ lex es rest = [] := by
  rw [lex_eq] at h
  cases hq : skip s with
  | nil =>
    refine ⟨[], [], [], ?_, rfl⟩
    simp only [gettoken, hq, scan]
    rfl
  | cons c t =>
    exfalso
    have htok : (gettoken s).1 = (scan (c :: t)).1 := by simp only [gettoken, hq]
    generalize gettoken s = g at h htok
    obtain ⟨tok, q, eq, rest⟩ := g
    simp only at htok
    subst htok
    rcases (scan_cons (s := t) (skip_cons hq)).2 with ⟨x, hx, _⟩ | ⟨hx, _⟩
    · rw [hx] at h
      simp at h
    · rw [hx] at h
      simp at h

theorem gettoken_sym {s : Cursor} {x : Sym} {ts : List Token} (h : lex es s = .sym x :: ts) :
    ∃ q eq rest, gettoken s = (.sym x, q, eq, rest) ∧ lex es rest = ts := by
  rw [lex_eq] at h
  generalize gettoken s = g at h ⊢
  obtain ⟨tok, q, eq, rest⟩ := g
  cases tok with
  | eof => simp at h
  | sym y =>
    simp only [List.cons.injEq, Token.sym.injEq] at h
    exact ⟨q, eq, rest, by rw [h.1], h.2⟩
  | word => simp at h

theorem gettoken_word {s : Cursor} {a b : Nat} {ts : List Token}
    (h : lex es s = .word a b :: ts) :
    ∃ q eq rest, gettoken s = (.word, q, eq, rest) ∧ off es q = a ∧ off es eq = b ∧
      lex es rest = ts := by
  rw [lex_eq] at h
  generalize gettoken s = g at h ⊢
  obtain ⟨tok, q, eq, rest⟩ := g
  cases tok with
  | eof => simp at h
  | sym y => simp at h
  | word =>
    simp only [List.cons.injEq, Token.word.injEq] at h
    exact ⟨q, eq, rest, rfl, h.1.1, h.1.2, h.2⟩

theorem peek_eq (es : Nat) {toks : List UInt8} (htoks : ∀ c ∈ toks, c ∈ symbols) (s : Cursor) :
    peek s toks = (starts toks (lex es s), skip s) := by
  unfold peek
  cases hq : skip s with
  | nil =>
    have hlex : lex es s = [] := by
      rw [← lex_skip, hq]
      rfl
    rw [hlex]
    rfl
  | cons c t =>
    have htok : (gettoken s).1 = (scan (c :: t)).1 := by simp only [gettoken, hq]
    simp only [Prod.mk.injEq, and_true]
    rw [lex_eq]
    generalize gettoken s = g at htok
    obtain ⟨tok, q, eq, rest⟩ := g
    simp only at htok
    subst htok
    rcases (scan_cons (s := t) (skip_cons hq)).2 with ⟨x, hx, hc⟩ | ⟨hx, hc⟩
    · simp only [hx, starts, hc]
    · simp only [hx, starts]
      by_contra hin
      have hmem : c ∈ toks := by simpa using hin
      have hsym := htoks c hmem
      simp at hc
      exact hc hsym

/-! ## The grammar -/

structure Redirection where
  file : Nat
  efile : Nat
  mode : Nat
  fd : Nat

def redirection (x : Sym) (q eq : Nat) : Option Redirection :=
  match x with
  | .lt => some ⟨q, eq, O_RDONLY, 0⟩
  | .gt | .append => some ⟨q, eq, O_WRONLY ||| O_CREATE, 1⟩
  | _ => none

def wrap (rs : List Redirection) (cmd : Cmd) : Cmd :=
  rs.foldl (fun cmd r => .redir cmd r.file r.efile r.mode r.fd) cmd

def argvOf (ws : List (Nat × Nat)) : List Arg :=
  ws.map some ++ List.replicate (MAXARGS - ws.length) none

def backs : Nat → Cmd → Cmd
  | 0, cmd => cmd
  | k + 1, cmd => backs k (.back cmd)

inductive Redirs : List Token → List Redirection → Prop
  | nil : Redirs [] []
  | cons {x : Sym} {q eq : Nat} {r : Redirection} {ts : List Token} {rs : List Redirection}
      (hr : redirection x q eq = some r) (h : Redirs ts rs) :
      Redirs (.sym x :: .word q eq :: ts) (r :: rs)

inductive Words : List Token → List (Nat × Nat) → List Redirection → Prop
  | nil : Words [] [] []
  | cons {q eq : Nat} {ts us : List Token} {ws : List (Nat × Nat)} {rs rs' : List Redirection}
      (hr : Redirs ts rs) (h : Words us ws rs') :
      Words (.word q eq :: (ts ++ us)) ((q, eq) :: ws) (rs ++ rs')

inductive Nt
  | line
  | pipe
  | exec

/-- The tokens derive from a nonterminal, and the derivation stands for the command. -/
inductive Derives : Nt → List Token → Cmd → Prop
  /-- `exec ::= '(' line ')' redir*` -/
  | block {ts us : List Token} {cmd : Cmd} {rs : List Redirection} (h : Derives .line ts cmd)
      (hr : Redirs us rs) : Derives .exec (.sym .lparen :: (ts ++ .sym .rparen :: us)) (wrap rs cmd)
  /-- `exec ::= redir* (word redir*)^k` with `k < MAXARGS` -/
  | words {ts us : List Token} {ws : List (Nat × Nat)} {rs rs' : List Redirection}
      (hr : Redirs ts rs) (h : Words us ws rs') (hlt : ws.length < MAXARGS) :
      Derives .exec (ts ++ us) (wrap (rs ++ rs') (.exec (argvOf ws)))
  /-- `pipe ::= exec` -/
  | single {ts : List Token} {cmd : Cmd} (h : Derives .exec ts cmd) : Derives .pipe ts cmd
  /-- `pipe ::= exec '|' pipe` -/
  | pipe {ts us : List Token} {left right : Cmd} (h : Derives .exec ts left)
      (h' : Derives .pipe us right) : Derives .pipe (ts ++ .sym .bar :: us) (.pipe left right)
  /-- `line ::= pipe '&'*` -/
  | last {ts : List Token} {cmd : Cmd} (k : Nat) (h : Derives .pipe ts cmd) :
      Derives .line (ts ++ List.replicate k (.sym .amp)) (backs k cmd)
  /-- `line ::= pipe '&'* ';' line` -/
  | list {ts us : List Token} {left right : Cmd} (k : Nat) (h : Derives .pipe ts left)
      (h' : Derives .line us right) :
      Derives .line (ts ++ (List.replicate k (.sym .amp) ++ .sym .semi :: us))
        (.list (backs k left) right)

/-! ## Commands that are built up -/

theorem wrap_append (rs rs' : List Redirection) (cmd : Cmd) :
    wrap (rs ++ rs') cmd = wrap rs' (wrap rs cmd) :=
  List.foldl_append

theorem length_argvOf {ws : List (Nat × Nat)} (h : ws.length ≤ MAXARGS) :
    (argvOf ws).length = MAXARGS := by
  rw [argvOf, List.length_append, List.length_map, List.length_replicate]
  omega

/-- The next word. -/
theorem set_argvOf {ws : List (Nat × Nat)} (h : ws.length < MAXARGS) (w : Nat × Nat) :
    (argvOf ws).set ws.length (some w) = argvOf (ws ++ [w]) := by
  have hrep : MAXARGS - ws.length = (MAXARGS - (ws.length + 1)) + 1 := by omega
  rw [argvOf, argvOf, List.set_append_right _ _ (by rw [List.length_map]), List.length_map,
    Nat.sub_self, hrep, List.replicate_succ, List.set_cons_zero, List.map_append,
    List.length_append, List.length_singleton, List.append_assoc]
  rfl

theorem set_argvOf_none {ws : List (Nat × Nat)} (h : ws.length < MAXARGS) :
    (argvOf ws).set ws.length none = argvOf ws := by
  have hrep : MAXARGS - ws.length = (MAXARGS - (ws.length + 1)) + 1 := by omega
  rw [argvOf, List.set_append_right _ _ (by rw [List.length_map]), List.length_map,
    Nat.sub_self, hrep, List.replicate_succ, List.set_cons_zero]

theorem setArg_wrap (rs : List Redirection) {argv : List Arg} {i : Nat} (h : i < argv.length)
    (a : Arg) : (wrap rs (.exec argv)).setArg i a = .ok (wrap rs (.exec (argv.set i a))) := by
  induction rs using List.reverseRecOn with
  | nil => simp [wrap, Cmd.setArg, h]
  | append_singleton rs r ih =>
    rw [wrap_append, wrap_append]
    change (Cmd.redir (wrap rs (.exec argv)) r.file r.efile r.mode r.fd).setArg i a = _
    rw [Cmd.setArg, ih]
    rfl

end Xv6.Shell
