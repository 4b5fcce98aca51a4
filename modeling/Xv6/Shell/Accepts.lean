import Xv6.Shell.Grammar

/-!
# The parser accepts the grammar

A function of the parser that returns has read tokens that derive from its nonterminal
(`Parses`), and with fuel enough it returns or panics.  Conversely it reads the tokens of a
derivation if what comes after them cannot go on with it.
-/

namespace Xv6.Shell

variable {es n : Nat} {s : Cursor}

/-- The function panics, or it returns a result and leaves the cursor after tokens that go
with it. -/
def Parses {α : Type} (es : Nat) (s : Cursor) (out : Except Error (α × Cursor))
    (P : List Token → α → Prop) : Prop :=
  (∃ msg, out = .error (.panic msg)) ∨
    ∃ a t ts, out = .ok (a, t) ∧ lex es s = ts ++ lex es t ∧ P ts a

/-- The function returns a result and leaves the cursor before the tokens `us`. -/
def Yields {α : Type} (es : Nat) (out : Except Error (α × Cursor)) (a : α) (us : List Token) : Prop :=
  ∃ t, out = .ok (a, t) ∧ lex es t = us

section Rules

variable {α β : Type} {out : Except Error (α × Cursor)} {f : α × Cursor → Except Error (β × Cursor)}
  {P : List Token → α → Prop} {Q : List Token → β → Prop}

theorem Parses.bind (h : Parses es s out P)
    (hf : ∀ a t ts, lex es s = ts ++ lex es t → P ts a →
      Parses es t (f (a, t)) fun us b => Q (ts ++ us) b) : Parses es s (out >>= f) Q := by
  rcases h with ⟨msg, rfl⟩ | ⟨a, t, ts, rfl, hsplit, hP⟩
  · exact .inl ⟨msg, rfl⟩
  · rcases hf a t ts hsplit hP with ⟨msg, hout⟩ | ⟨b, u, us, hout, hsplit', hQ⟩
    · exact .inl ⟨msg, hout⟩
    · exact .inr ⟨b, u, ts ++ us, hout, by rw [hsplit, hsplit', List.append_assoc], hQ⟩

theorem Parses.pure {a : α} (hP : P [] a) : Parses es s (.ok (a, skip s)) P :=
  .inr ⟨a, skip s, [], rfl, by rw [lex_skip, List.nil_append], hP⟩

theorem Parses.after {t : Cursor} (ts : List Token) (hlex : lex es s = ts ++ lex es t)
    (h : Parses es t out fun us a => P (ts ++ us) a) : Parses es s out P := by
  rcases h with hpanic | ⟨a, u, us, hout, hsplit, hP⟩
  · exact .inl hpanic
  · exact .inr ⟨a, u, ts ++ us, hout, by rw [hlex, hsplit, List.append_assoc], hP⟩

theorem Yields.bind {a : α} {b : β} {us vs : List Token} (h : Yields es out a us)
    (hf : ∀ t, lex es t = us → Yields es (f (a, t)) b vs) : Yields es (out >>= f) b vs := by
  obtain ⟨t, rfl, ht⟩ := h
  exact hf t ht

end Rules

/-! ## What follows a nonterminal -/

def follow : Nt → List UInt8
  | .exec => [ch '|', ch ')', ch '&', ch ';']
  | .pipe => [ch ')', ch '&', ch ';']
  | .line => [ch ')']

def Stops (nt : Nt) (us : List Token) : Prop :=
  us = [] ∨ starts (follow nt) us = true

theorem Stops.not_starts {nt : Nt} {us : List Token} {toks : List UInt8} (h : Stops nt us)
    (hdis : ∀ c ∈ follow nt, c ∉ toks) : starts toks us = false := by
  rcases h with rfl | h
  · rfl
  · cases us with
    | nil => rfl
    | cons t us =>
      cases t with
      | word q eq => rfl
      | sym x =>
        have hx : x.char ∈ follow nt := by simpa [starts] using h
        simpa [starts] using hdis _ hx

theorem Stops.mono {nt nt' : Nt} {us : List Token} (h : Stops nt us)
    (hsub : ∀ c ∈ follow nt, c ∈ follow nt') : Stops nt' us := by
  rcases h with rfl | h
  · exact .inl rfl
  · right
    cases us with
    | nil => simp [starts] at h
    | cons t us =>
      cases t with
      | word q eq => simp [starts] at h
      | sym x =>
        have hx : x.char ∈ follow nt := by simpa [starts] using h
        simpa [starts] using hsub _ hx

theorem starts_singleton {x : Sym} (hx : x.char ≠ ch '>') {ts : List Token} :
    starts [x.char] ts = true ↔ ∃ us, ts = .sym x :: us := by
  constructor
  · intro h
    cases ts with
    | nil => simp [starts] at h
    | cons t us =>
      cases t with
      | word q eq => simp [starts] at h
      | sym y =>
        refine ⟨us, ?_⟩
        have hy : y.char = x.char := by simpa [starts] using h
        have hxy : x = y := by
          revert hx hy
          cases x <;> cases y <;> decide
        rw [hxy]
  · rintro ⟨us, rfl⟩
    simp [starts]

theorem symbols_redir : ∀ c ∈ [ch '<', ch '>'], c ∈ symbols := by decide +kernel

theorem symbols_stop : ∀ c ∈ [ch '|', ch ')', ch '&', ch ';'], c ∈ symbols := by decide +kernel

theorem symbols_of_mem {c : UInt8} (h : c ∈ symbols) : ∀ d ∈ [c], d ∈ symbols := by
  intro d hd
  rw [List.mem_singleton.1 hd]
  exact h

/-! ## Redirections -/

theorem starts_redir (x : Sym) (ts : List Token) (q eq : Nat) :
    starts [ch '<', ch '>'] (.sym x :: ts) = (redirection x q eq).isSome := by
  cases x <;> rfl

theorem parseredirs_cons (n : Nat) (cmd : Cmd) {x : Sym} {q eq : Nat} {r : Redirection} {ts : List Token}
    (hlex : lex es s = .sym x :: .word q eq :: ts) (hr : redirection x q eq = some r) :
    ∃ t, lex es t = ts ∧
      parseredirs es (n + 1) cmd s = parseredirs es n (.redir cmd r.file r.efile r.mode r.fd) t := by
  have hsome : starts [ch '<', ch '>'] (lex es s) = true := by
    rw [hlex, starts_redir x _ q eq, hr]
    rfl
  obtain ⟨q₁, eq₁, s₁, htok, hlex₁⟩ := gettoken_sym ((lex_skip s).trans hlex)
  obtain ⟨q₂, eq₂, s₂, hword, hq, heq, hlex₂⟩ := gettoken_word hlex₁
  refine ⟨s₂, hlex₂, ?_⟩
  rw [parseredirs, peek_eq es symbols_redir]
  simp only [hsome, if_true, htok, hword, ne_eq, not_true, if_false, hq, heq]
  cases x <;> simp only [redirection, Option.some.injEq, reduceCtorEq] at hr
  all_goals
    subst hr
    rfl

theorem parseredirs_end {cmd : Cmd} (h : starts [ch '<', ch '>'] (lex es s) = false) :
    parseredirs es (n + 1) cmd s = .ok (cmd, skip s) := by
  rw [parseredirs, peek_eq es symbols_redir, h]
  rfl

theorem parseredirs_missing {cmd : Cmd} {x : Sym} {ts : List Token} (hlex : lex es s = .sym x :: ts)
    (hx : starts [ch '<', ch '>'] (lex es s) = true) (hts : ∀ q eq us, ts ≠ .word q eq :: us) :
    ∃ msg, parseredirs es (n + 1) cmd s = .error (.panic msg) := by
  obtain ⟨q₁, eq₁, s₁, htok, hlex₁⟩ := gettoken_sym ((lex_skip s).trans hlex)
  refine ⟨"missing file for redirection", ?_⟩
  rw [parseredirs, peek_eq es symbols_redir]
  simp only [hx, if_true, htok]
  cases ts with
  | nil =>
    obtain ⟨q₂, eq₂, s₂, hend, _⟩ := gettoken_nil hlex₁
    simp [hend]
  | cons t ts =>
    cases t with
    | sym y =>
      obtain ⟨q₂, eq₂, s₂, hsym, _⟩ := gettoken_sym hlex₁
      simp [hsym]
    | word q eq => exact absurd rfl (hts q eq ts)

theorem parses_redirs (cmd : Cmd) (hn : (lex es s).length < n) :
    Parses es s (parseredirs es n cmd s) fun ts c => ∃ rs, Redirs ts rs ∧ c = wrap rs cmd := by
  induction n generalizing cmd s with
  | zero => omega
  | succ n ih =>
    by_cases hstart : starts [ch '<', ch '>'] (lex es s) = true
    · cases hlex : lex es s with
      | nil => simp [hlex, starts] at hstart
      | cons t ts =>
        cases t with
        | word q eq => simp [hlex, starts] at hstart
        | sym x =>
          by_cases hword : ∃ q eq us, ts = .word q eq :: us
          · obtain ⟨q, eq, us, rfl⟩ := hword
            have hsome : (redirection x q eq).isSome = true := by
              rw [← starts_redir x (.word q eq :: us) q eq, ← hlex]
              exact hstart
            obtain ⟨r, hr⟩ := Option.isSome_iff_exists.1 hsome
            obtain ⟨t, ht, hstep⟩ := parseredirs_cons n cmd hlex hr
            have hlt : (lex es t).length < n := by
              rw [hlex, List.length_cons, List.length_cons, ← ht] at hn
              omega
            rw [hstep]
            rcases ih _ hlt with hpanic | hok
            · exact .inl hpanic
            · obtain ⟨c, t', ts, hout, hsplit, rs, hrs, hc⟩ := hok
              refine .inr ⟨c, t', .sym x :: .word q eq :: ts, hout, ?_, r :: rs, .cons hr hrs, hc⟩
              rw [hlex, ← ht, hsplit]
              rfl
          · exact .inl (parseredirs_missing hlex hstart fun q eq us h => hword ⟨q, eq, us, h⟩)
    · rw [parseredirs_end (Bool.not_eq_true _ ▸ hstart)]
      exact .inr ⟨cmd, skip s, [], rfl, by rw [lex_skip]; rfl, [], .nil, rfl⟩

theorem yields_redirs {ts us : List Token} {rs : List Redirection} (h : Redirs ts rs) (cmd : Cmd)
    (hlex : lex es s = ts ++ us) (hus : starts [ch '<', ch '>'] us = false)
    (hn : ts.length < n) : Yields es (parseredirs es n cmd s) (wrap rs cmd) us := by
  induction h generalizing n cmd s with
  | nil =>
    obtain ⟨n, rfl⟩ : ∃ k, n = k + 1 := ⟨n - 1, by rw [List.length_nil] at hn; omega⟩
    rw [List.nil_append] at hlex
    rw [parseredirs_end (by rw [hlex]; exact hus)]
    exact ⟨skip s, rfl, by rw [lex_skip, hlex]⟩
  | @cons x q eq r ts rs hr _ ih =>
    obtain ⟨n, rfl⟩ : ∃ k, n = k + 1 := ⟨n - 1, by omega⟩
    rw [List.length_cons, List.length_cons] at hn
    obtain ⟨t, ht, hstep⟩ := parseredirs_cons n cmd hlex hr
    rw [hstep]
    exact ih _ ht (by omega)

/-! ## Words -/

theorem Stops.redir {us : List Token} (h : Stops .exec us) : starts [ch '<', ch '>'] us = false :=
  h.not_starts (by decide +kernel)

theorem argsLoop_end (n argc : Nat) (ret : Cmd) (h : Stops .exec (lex es s)) :
    ∃ t, argsLoop es (n + 1) argc ret s = .ok (argc, ret, t) ∧ lex es t = lex es s := by
  rw [argsLoop, peek_eq es symbols_stop]
  by_cases hstop : starts [ch '|', ch ')', ch '&', ch ';'] (lex es s) = true
  · refine ⟨skip s, ?_, lex_skip s⟩
    simp only [hstop, if_true]
  · have hnil : lex es s = [] := h.resolve_right hstop
    obtain ⟨q, eq, t, htok, ht⟩ := gettoken_nil ((lex_skip s).trans hnil)
    refine ⟨t, ?_, by rw [ht, hnil]⟩
    simp only [hstop, if_false, htok, Bool.false_eq_true]

theorem argsLoop_syntax (n : Nat) {argc : Nat} {ret : Cmd} {x : Sym} {ts : List Token}
    (hlex : lex es s = .sym x :: ts) (h : ¬ Stops .exec (lex es s)) :
    argsLoop es (n + 1) argc ret s = .error (.panic "syntax") := by
  have hstop : starts [ch '|', ch ')', ch '&', ch ';'] (lex es s) = false := by
    rw [Stops, not_or, Bool.not_eq_true] at h
    exact h.2
  obtain ⟨q, eq, t, htok, _⟩ := gettoken_sym ((lex_skip s).trans hlex)
  rw [argsLoop, peek_eq es symbols_stop]
  simp only [hstop, if_false, htok, Bool.false_eq_true]

theorem argsLoop_word (n : Nat) {ws : List (Nat × Nat)} (rs : List Redirection) {q eq : Nat}
    {ts : List Token} (hlex : lex es s = .word q eq :: ts) (hws : ws.length < MAXARGS) :
    ∃ t, lex es t = ts ∧
      argsLoop es (n + 1) ws.length (wrap rs (.exec (argvOf ws))) s =
        if MAXARGS ≤ ws.length + 1 then .error (.panic "too many args")
        else parseredirs es n (wrap rs (.exec (argvOf (ws ++ [(q, eq)])))) t >>= fun r =>
          argsLoop es n (ws.length + 1) r.1 r.2 := by
  have hstop : starts [ch '|', ch ')', ch '&', ch ';'] (lex es s) = false := by
    rw [hlex]
    rfl
  obtain ⟨q₁, eq₁, t, htok, rfl, rfl, ht⟩ := gettoken_word ((lex_skip s).trans hlex)
  have hlt : ws.length < (argvOf ws).length := by rwa [length_argvOf hws.le]
  have hset := setArg_wrap rs hlt (some (off es q₁, off es eq₁))
  rw [set_argvOf hws] at hset
  refine ⟨t, ht, ?_⟩
  rw [argsLoop, peek_eq es symbols_stop]
  simp only [hstop, if_false, htok, Bool.false_eq_true, hset]
  rfl

theorem parses_words (ws : List (Nat × Nat)) (rs : List Redirection) (hws : ws.length < MAXARGS)
    (hn : (lex es s).length + 1 < n) :
    (∃ msg, argsLoop es n ws.length (wrap rs (.exec (argvOf ws))) s = .error (.panic msg)) ∨
      ∃ ws' rs' t ts, argsLoop es n ws.length (wrap rs (.exec (argvOf ws))) s =
          .ok ((ws ++ ws').length, wrap (rs ++ rs') (.exec (argvOf (ws ++ ws'))), t) ∧
        lex es s = ts ++ lex es t ∧ Words ts ws' rs' ∧ (ws ++ ws').length < MAXARGS := by
  induction n generalizing ws rs s with
  | zero => omega
  | succ n ih =>
    by_cases hstop : Stops .exec (lex es s)
    · obtain ⟨t, hout, ht⟩ := argsLoop_end n ws.length (wrap rs (.exec (argvOf ws))) hstop
      refine .inr ⟨[], [], t, [], ?_, by rw [ht]; rfl, .nil, by rwa [List.append_nil]⟩
      rw [hout, List.append_nil, List.append_nil]
    · cases hlex : lex es s with
      | nil => exact absurd (.inl hlex) hstop
      | cons x ts =>
        cases x with
        | sym x => exact .inl ⟨_, argsLoop_syntax n hlex hstop⟩
        | word q eq =>
          obtain ⟨t, ht, hstep⟩ := argsLoop_word n rs hlex hws
          rw [hstep]
          by_cases hmax : MAXARGS ≤ ws.length + 1
          · rw [if_pos hmax]
            exact .inl ⟨_, rfl⟩
          · rw [if_neg hmax]
            rw [hlex, List.length_cons] at hn
            have hone : ws.length + 1 = (ws ++ [(q, eq)]).length := by
              rw [List.length_append, List.length_singleton]
            rcases parses_redirs (wrap rs (.exec (argvOf (ws ++ [(q, eq)]))))
              (show (lex es t).length < n by rw [ht]; omega) with ⟨msg, hout⟩ | hok
            · rw [hout]
              exact .inl ⟨msg, rfl⟩
            · obtain ⟨c, u, ts₁, hout, hsplit, rs₁, hrs₁, rfl⟩ := hok
              have hlen : (lex es u).length ≤ ts.length := by
                rw [← ht, hsplit, List.length_append]
                omega
              rw [hout, ← wrap_append]
              change (∃ msg, argsLoop es n (ws.length + 1) _ u = _) ∨ ∃ ws' rs' t ts,
                argsLoop es n (ws.length + 1) _ u = _ ∧ _
              rw [hone]
              rcases ih (ws ++ [(q, eq)]) (rs ++ rs₁) (s := u)
                (by omega) (by omega) with hpanic | hok
              · exact .inl hpanic
              · obtain ⟨ws', rs', v, us, hout', hsplit', hwords, hlt⟩ := hok
                refine .inr ⟨(q, eq) :: ws', rs₁ ++ rs', v, .word q eq :: (ts₁ ++ us), ?_, ?_,
                  .cons hrs₁ hwords, ?_⟩
                · rw [hout', List.append_assoc, List.append_assoc]
                  rfl
                · rw [← ht, hsplit, hsplit', List.cons_append, List.append_assoc]
                · rwa [List.append_assoc] at hlt

theorem Words.redir {ts us : List Token} {ws : List (Nat × Nat)} {rs : List Redirection}
    (h : Words ts ws rs) (hus : Stops .exec us) : starts [ch '<', ch '>'] (ts ++ us) = false := by
  cases h with
  | nil => exact hus.redir
  | cons _ _ => rfl

theorem yields_words {ts us : List Token} {ws' : List (Nat × Nat)} {rs' : List Redirection}
    (h : Words ts ws' rs') (ws : List (Nat × Nat)) (rs : List Redirection)
    (hlex : lex es s = ts ++ us) (hus : Stops .exec us) (hlt : (ws ++ ws').length < MAXARGS)
    (hn : ts.length + 1 < n) :
    ∃ t, argsLoop es n ws.length (wrap rs (.exec (argvOf ws))) s =
        .ok ((ws ++ ws').length, wrap (rs ++ rs') (.exec (argvOf (ws ++ ws'))), t) ∧
      lex es t = us := by
  induction h generalizing ws rs n s with
  | nil =>
    obtain ⟨n, rfl⟩ : ∃ k, n = k + 1 := ⟨n - 1, by omega⟩
    rw [List.nil_append] at hlex
    obtain ⟨t, hout, ht⟩ := argsLoop_end n ws.length (wrap rs (.exec (argvOf ws)))
      (by rw [hlex]; exact hus)
    exact ⟨t, by rw [hout, List.append_nil, List.append_nil], ht.trans hlex⟩
  | @cons q eq ts₁ ts₂ ws' rs₁ rs₂ hrs hwords ih =>
    obtain ⟨n, rfl⟩ : ∃ k, n = k + 1 := ⟨n - 1, by omega⟩
    rw [List.length_append, List.length_cons] at hlt
    rw [List.length_cons, List.length_append] at hn
    rw [List.cons_append, List.append_assoc] at hlex
    obtain ⟨t, ht, hstep⟩ := argsLoop_word n rs hlex (show ws.length < MAXARGS by omega)
    obtain ⟨u, hredirs, hu⟩ := yields_redirs hrs (wrap rs (.exec (argvOf (ws ++ [(q, eq)]))))
      ht (hwords.redir hus) (n := n) (by omega)
    have hone : ws.length + 1 = (ws ++ [(q, eq)]).length := by
      rw [List.length_append, List.length_singleton]
    have hassoc : ws ++ [(q, eq)] ++ ws' = ws ++ (q, eq) :: ws' := by
      rw [List.append_assoc]
      rfl
    obtain ⟨v, hout, hv⟩ := ih (ws ++ [(q, eq)]) (rs ++ rs₁) hu
      (by rw [hassoc, List.length_append, List.length_cons]; exact hlt) (n := n) (by omega)
    refine ⟨v, ?_, hv⟩
    rw [hstep, if_neg (by omega), hredirs, ← wrap_append]
    change argsLoop es n (ws.length + 1) _ u = _
    rw [hone, hout, hassoc, List.append_assoc]

/-! ## The background -/

theorem backLoop_cons (n : Nat) (cmd : Cmd) {ts : List Token} (hlex : lex es s = .sym .amp :: ts) :
    ∃ t, lex es t = ts ∧ backLoop (n + 1) cmd s = backLoop n (.back cmd) t := by
  obtain ⟨q, eq, t, htok, ht⟩ := gettoken_sym ((lex_skip s).trans hlex)
  refine ⟨t, ht, ?_⟩
  rw [backLoop, peek_eq es (symbols_of_mem (by decide)), hlex]
  simp only [htok]
  rfl

theorem backLoop_end (n : Nat) {cmd : Cmd} (h : starts [ch '&'] (lex es s) = false) :
    backLoop (n + 1) cmd s = .ok (cmd, skip s) := by
  rw [backLoop, peek_eq es (symbols_of_mem (by decide)), h]
  rfl

theorem parses_backs (cmd : Cmd) (hn : (lex es s).length < n) :
    Parses es s (backLoop n cmd s) fun ts c =>
      ∃ k, ts = List.replicate k (.sym .amp) ∧ c = backs k cmd := by
  induction n generalizing cmd s with
  | zero => omega
  | succ n ih =>
    by_cases hstart : starts [Sym.amp.char] (lex es s) = true
    · obtain ⟨ts, hlex⟩ := (starts_singleton (by decide)).1 hstart
      obtain ⟨t, ht, hstep⟩ := backLoop_cons n cmd hlex
      rw [hstep]
      rw [hlex, List.length_cons, ← ht] at hn
      refine Parses.after (t := t) [.sym .amp] (by rw [hlex, ht]; rfl) ?_
      rcases ih (.back cmd) (s := t) (by omega) with hpanic | ⟨c, u, us, hout, hsplit, k, hk, hc⟩
      · exact .inl hpanic
      · refine .inr ⟨c, u, us, hout, hsplit, k + 1, ?_, hc⟩
        rw [hk, List.replicate_succ]
        rfl
    · rw [backLoop_end n (Bool.not_eq_true _ ▸ hstart)]
      exact Parses.pure ⟨0, rfl, rfl⟩

theorem yields_backs {us : List Token} (k : Nat) (cmd : Cmd)
    (hlex : lex es s = List.replicate k (.sym .amp) ++ us) (hus : starts [ch '&'] us = false)
    (hn : k < n) : Yields es (backLoop n cmd s) (backs k cmd) us := by
  induction k generalizing n cmd s with
  | zero =>
    obtain ⟨n, rfl⟩ : ∃ m, n = m + 1 := ⟨n - 1, by omega⟩
    rw [List.replicate_zero, List.nil_append] at hlex
    rw [backLoop_end n (by rw [hlex]; exact hus)]
    exact ⟨skip s, rfl, by rw [lex_skip, hlex]⟩
  | succ k ih =>
    obtain ⟨n, rfl⟩ : ∃ m, n = m + 1 := ⟨n - 1, by omega⟩
    rw [List.replicate_succ, List.cons_append] at hlex
    obtain ⟨t, ht, hstep⟩ := backLoop_cons n cmd hlex
    rw [hstep]
    exact ih _ ht (by omega)

/-! ## What the parser returns derives from the grammar -/

theorem parses_block {ts : List Token} (hlex : lex es s = .sym .lparen :: ts) (hn : ts.length < n)
    (hline : ∀ t, lex es t = ts → Parses es t (parseline es n t) (Derives .line)) :
    Parses es s (parseblock es (n + 1) s) (Derives .exec) := by
  have hopen : starts [ch '('] (lex es s) = true := by
    rw [hlex]
    rfl
  obtain ⟨q, eq, t, htok, ht⟩ := gettoken_sym ((lex_skip s).trans hlex)
  rw [parseblock, peek_eq es (symbols_of_mem (by decide)), hopen]
  simp only [htok, Bool.not_true, Bool.false_eq_true, if_false]
  refine Parses.after (t := t) [.sym .lparen] (by rw [hlex, ht]; rfl) ?_
  refine (hline t ht).bind ?_
  intro cmd u us hsplit hd
  simp only [peek_eq es (symbols_of_mem (show ch ')' ∈ symbols by decide))]
  by_cases hclose : starts [Sym.rparen.char] (lex es u) = true
  · obtain ⟨vs, hu⟩ := (starts_singleton (by decide)).1 hclose
    obtain ⟨q', eq', v, htok', hv⟩ := gettoken_sym ((lex_skip u).trans hu)
    have hlen : (lex es v).length < n := by
      rw [← ht, hsplit, hu, List.length_append, List.length_cons, ← hv] at hn
      omega
    change starts [ch ')'] (lex es u) = true at hclose
    simp only [hclose, htok', Bool.not_true, Bool.false_eq_true, if_false]
    refine Parses.after (t := v) [.sym .rparen] (by rw [hu, hv]; rfl) ?_
    rcases parses_redirs cmd hlen with hpanic | ⟨c, w, ws, hout, hsplit', rs, hrs, rfl⟩
    · exact .inl hpanic
    · exact .inr ⟨_, w, ws, hout, hsplit', .block hd hrs⟩
  · change ¬ starts [ch ')'] (lex es u) = true at hclose
    rw [Bool.not_eq_true] at hclose
    simp only [hclose, Bool.not_false, if_true]
    exact .inl ⟨_, rfl⟩

theorem parses_exec (hn : (lex es s).length + 1 < n)
    (hblock : starts [ch '('] (lex es s) = true →
      Parses es (skip s) (parseblock es n (skip s)) (Derives .exec)) :
    Parses es s (parseexec es (n + 1) s) (Derives .exec) := by
  rw [parseexec, peek_eq es (symbols_of_mem (by decide))]
  refine Parses.after (t := skip s) [] (by rw [lex_skip]; rfl) ?_
  by_cases hopen : starts [ch '('] (lex es s) = true
  · simp only [hopen, if_true]
    exact hblock hopen
  · simp only [hopen, Bool.false_eq_true, if_false]
    have hlen : (lex es (skip s)).length < n := by
      rw [lex_skip]
      omega
    refine (parses_redirs execcmd hlen).bind ?_
    rintro ret t ts hsplit ⟨rs, hrs, rfl⟩
    have hexec : execcmd = .exec (argvOf []) := rfl
    have hlen' : (lex es t).length + 1 < n := by
      rw [← lex_skip, hsplit, List.length_append] at hn
      omega
    rw [hexec]
    rcases parses_words [] rs (by decide) hlen' with ⟨msg, hout⟩ | hok
    · rw [List.length_nil] at hout
      rw [hout]
      exact .inl ⟨msg, rfl⟩
    · obtain ⟨ws, rs', u, us, hout, hsplit', hwords, hlt⟩ := hok
      rw [List.nil_append] at hout hlt
      rw [List.length_nil] at hout
      have hin : ws.length < (argvOf ws).length := by rwa [length_argvOf hlt.le]
      rw [hout]
      have hd : Derives .exec (ts ++ us) (wrap (rs ++ rs') (.exec (argvOf ws))) :=
        .words hrs hwords hlt
      refine .inr ⟨wrap (rs ++ rs') (.exec (argvOf ws)), u, us, ?_, hsplit', hd⟩
      change (do
        let ret ← (wrap (rs ++ rs') (.exec (argvOf ws))).setArg ws.length none
        pure (ret, u)) = _
      rw [setArg_wrap _ hin, set_argvOf_none hlt]
      rfl

theorem parses_pipe {n : Nat} (hexec : Parses es s (parseexec es n s) (Derives .exec))
    (hright : ∀ t, (lex es t).length < (lex es s).length →
      Parses es t (parsepipe es n t) (Derives .pipe)) :
    Parses es s (parsepipe es (n + 1) s) (Derives .pipe) := by
  rw [parsepipe]
  refine hexec.bind ?_
  intro left t ts hsplit hleft
  simp only [peek_eq es (symbols_of_mem (show ch '|' ∈ symbols by decide))]
  by_cases hbar : starts [Sym.bar.char] (lex es t) = true
  · obtain ⟨us, hu⟩ := (starts_singleton (by decide)).1 hbar
    obtain ⟨q, eq, u, htok, hu'⟩ := gettoken_sym ((lex_skip t).trans hu)
    have hlt : (lex es u).length < (lex es s).length := by
      rw [hsplit, hu, hu', List.length_append, List.length_cons]
      omega
    change starts [ch '|'] (lex es t) = true at hbar
    simp only [hbar, htok, if_true]
    refine Parses.after (t := u) [.sym .bar] (by rw [hu, hu']; rfl) ?_
    refine (hright u hlt).bind ?_
    intro right v vs hsplit' hd
    refine .inr ⟨_, v, [], rfl, rfl, ?_⟩
    simp only [List.append_nil]
    exact .pipe hleft hd
  · change ¬ starts [ch '|'] (lex es t) = true at hbar
    simp only [hbar, Bool.false_eq_true, if_false]
    exact Parses.pure (by rw [List.append_nil]; exact .single hleft)

theorem parses_line {n : Nat} (hn : (lex es s).length < n)
    (hpipe : Parses es s (parsepipe es n s) (Derives .pipe))
    (hright : ∀ t, (lex es t).length < (lex es s).length →
      Parses es t (parseline es n t) (Derives .line)) :
    Parses es s (parseline es (n + 1) s) (Derives .line) := by
  rw [parseline]
  refine hpipe.bind ?_
  intro left t ts hsplit hleft
  have hlen : (lex es t).length < n := by
    rw [hsplit, List.length_append] at hn
    omega
  refine (parses_backs left hlen).bind ?_
  rintro cmd u us hsplit' ⟨k, rfl, rfl⟩
  simp only [peek_eq es (symbols_of_mem (show ch ';' ∈ symbols by decide))]
  by_cases hsemi : starts [Sym.semi.char] (lex es u) = true
  · obtain ⟨vs, hv⟩ := (starts_singleton (by decide)).1 hsemi
    obtain ⟨q, eq, v, htok, hv'⟩ := gettoken_sym ((lex_skip u).trans hv)
    have hlt : (lex es v).length < (lex es s).length := by
      rw [hsplit, hsplit', hv, hv', List.length_append, List.length_append, List.length_cons]
      omega
    change starts [ch ';'] (lex es u) = true at hsemi
    simp only [hsemi, htok, if_true]
    refine Parses.after (t := v) [.sym .semi] (by rw [hv, hv']; rfl) ?_
    refine (hright v hlt).bind ?_
    intro right w ws hsplit'' hd
    refine .inr ⟨_, w, [], rfl, rfl, ?_⟩
    simp only [List.append_nil]
    exact .list k hleft hd
  · change ¬ starts [ch ';'] (lex es u) = true at hsemi
    simp only [hsemi, Bool.false_eq_true, if_false]
    exact Parses.pure (by rw [List.append_nil]; exact .last k hleft)

def Nt.parse (es : Nat) : Nt → Nat → Cursor → Except Error (Cmd × Cursor)
  | .exec => parseexec es
  | .pipe => parsepipe es
  | .line => parseline es

def Nt.depth : Nt → Nat
  | .exec => 3
  | .pipe => 4
  | .line => 5

theorem parses (n : Nat) (nt : Nt) (hn : 4 * (lex es s).length + nt.depth ≤ n) :
    Parses es s (nt.parse es n s) (Derives nt) := by
  induction n using Nat.strong_induction_on generalizing nt s with
  | _ n ih =>
    cases nt with
    | exec =>
      rw [Nt.depth] at hn
      obtain ⟨n, rfl⟩ : ∃ m, n = m + 2 := ⟨n - 2, by omega⟩
      refine parses_exec (by omega) fun hopen => ?_
      obtain ⟨ts, hlex⟩ := (starts_singleton (x := .lparen) (by decide)).1 hopen
      rw [hlex, List.length_cons] at hn
      refine parses_block ((lex_skip s).trans hlex) (by omega) fun t ht => ?_
      exact ih n (by omega) .line (by rw [ht, Nt.depth]; omega)
    | pipe =>
      rw [Nt.depth] at hn
      obtain ⟨n, rfl⟩ : ∃ m, n = m + 1 := ⟨n - 1, by omega⟩
      have hexec := ih n (by omega) (s := s) .exec (by rw [Nt.depth]; omega)
      refine parses_pipe hexec fun t ht => ?_
      exact ih n (by omega) .pipe (by rw [Nt.depth]; omega)
    | line =>
      rw [Nt.depth] at hn
      obtain ⟨n, rfl⟩ : ∃ m, n = m + 1 := ⟨n - 1, by omega⟩
      have hpipe := ih n (by omega) (s := s) .pipe (by rw [Nt.depth]; omega)
      refine parses_line (by omega) hpipe fun t ht => ?_
      exact ih n (by omega) .line (by rw [Nt.depth]; omega)

/-! ## What derives from the grammar is parsed -/

section Yields

variable {ts us : List Token} {cmd : Cmd}

theorem yields_block {rs : List Redirection} {ts' : List Token} (hr : Redirs ts' rs)
    (hlex : lex es s = .sym .lparen :: (ts ++ .sym .rparen :: (ts' ++ us)))
    (hus : Stops .exec us) (hn : ts'.length < n)
    (hline : ∀ t, lex es t = ts ++ .sym .rparen :: (ts' ++ us) →
      Yields es (parseline es n t) cmd (.sym .rparen :: (ts' ++ us))) :
    Yields es (parseblock es (n + 1) s) (wrap rs cmd) us := by
  have hopen : starts [ch '('] (lex es s) = true := by
    rw [hlex]
    rfl
  obtain ⟨q, eq, t, htok, ht⟩ := gettoken_sym ((lex_skip s).trans hlex)
  rw [parseblock, peek_eq es (symbols_of_mem (by decide)), hopen]
  simp only [htok, Bool.not_true, Bool.false_eq_true, if_false]
  refine (hline t ht).bind fun u hu => ?_
  have hclose : starts [ch ')'] (lex es u) = true := by
    rw [hu]
    rfl
  obtain ⟨q', eq', v, htok', hv⟩ := gettoken_sym ((lex_skip u).trans hu)
  simp only [peek_eq es (symbols_of_mem (show ch ')' ∈ symbols by decide)), hclose, htok',
    Bool.not_true, Bool.false_eq_true, if_false]
  exact yields_redirs hr cmd hv hus.redir hn

theorem starts_words {ws : List (Nat × Nat)} {rs rs' : List Redirection} {ts' : List Token}
    (hr : Redirs ts rs) (hw : Words ts' ws rs') (hus : Stops .exec us) :
    starts [ch '('] (ts ++ ts' ++ us) = false := by
  cases hr with
  | nil =>
    cases hw with
    | nil => exact hus.not_starts (by decide +kernel)
    | cons _ _ => rfl
  | @cons x q eq r ts rs hr _ =>
    cases x <;> first | rfl | simp [redirection] at hr

theorem yields_exec {ws : List (Nat × Nat)} {rs rs' : List Redirection} {ts' : List Token}
    (hr : Redirs ts rs) (hw : Words ts' ws rs') (hlt : ws.length < MAXARGS)
    (hlex : lex es s = ts ++ ts' ++ us) (hus : Stops .exec us)
    (hn : ts.length + ts'.length + 1 < n) :
    Yields es (parseexec es (n + 1) s) (wrap (rs ++ rs') (.exec (argvOf ws))) us := by
  have hopen : starts [ch '('] (lex es s) = false := by
    rw [hlex]
    exact starts_words hr hw hus
  have hin : ws.length < (argvOf ws).length := by rwa [length_argvOf hlt.le]
  rw [parseexec, peek_eq es (symbols_of_mem (by decide)), hopen]
  simp only [Bool.false_eq_true, if_false]
  rw [List.append_assoc] at hlex
  have hredirs : Yields es (parseredirs es n (.exec (argvOf [])) (skip s)) _ (ts' ++ us) :=
    yields_redirs hr _ ((lex_skip s).trans hlex) (hw.redir hus) (by omega)
  refine hredirs.bind fun t ht => ?_
  obtain ⟨u, hout, hu⟩ := yields_words hw [] rs ht hus hlt (n := n) (by omega)
  rw [List.length_nil, List.nil_append] at hout
  refine ⟨u, ?_, hu⟩
  simp only [hout]
  change (do
    let ret ← (wrap (rs ++ rs') (.exec (argvOf ws))).setArg ws.length none
    pure (ret, u)) = _
  rw [setArg_wrap _ hin, set_argvOf_none hlt]
  rfl

theorem yields_single {n : Nat} (hexec : Yields es (parseexec es n s) cmd us)
    (hus : Stops .pipe us) : Yields es (parsepipe es (n + 1) s) cmd us := by
  rw [parsepipe]
  refine hexec.bind fun t ht => ?_
  have hbar : starts [ch '|'] (lex es t) = false := by
    rw [ht]
    exact hus.not_starts (by decide +kernel)
  simp only [peek_eq es (symbols_of_mem (show ch '|' ∈ symbols by decide)), hbar,
    Bool.false_eq_true, if_false]
  exact ⟨skip t, rfl, (lex_skip t).trans ht⟩

theorem yields_pipe {n : Nat} {right : Cmd}
    (hexec : Yields es (parseexec es n s) cmd (.sym .bar :: us)) {vs : List Token}
    (hright : ∀ t, lex es t = us → Yields es (parsepipe es n t) right vs) :
    Yields es (parsepipe es (n + 1) s) (.pipe cmd right) vs := by
  rw [parsepipe]
  refine hexec.bind fun t ht => ?_
  have hbar : starts [ch '|'] (lex es t) = true := by
    rw [ht]
    rfl
  obtain ⟨q, eq, u, htok, hu⟩ := gettoken_sym ((lex_skip t).trans ht)
  simp only [peek_eq es (symbols_of_mem (show ch '|' ∈ symbols by decide)), hbar, htok, if_true]
  exact (hright u hu).bind fun v hv => ⟨v, rfl, hv⟩

theorem yields_last {n : Nat} (k : Nat)
    (hpipe : Yields es (parsepipe es n s) cmd (List.replicate k (.sym .amp) ++ us))
    (hus : Stops .line us) (hn : k < n) : Yields es (parseline es (n + 1) s) (backs k cmd) us := by
  rw [parseline]
  refine hpipe.bind fun t ht => ?_
  refine (yields_backs k cmd ht (hus.not_starts (by decide +kernel)) hn).bind fun u hu => ?_
  have hsemi : starts [ch ';'] (lex es u) = false := by
    rw [hu]
    exact hus.not_starts (by decide +kernel)
  simp only [peek_eq es (symbols_of_mem (show ch ';' ∈ symbols by decide)), hsemi,
    Bool.false_eq_true, if_false]
  exact ⟨skip u, rfl, (lex_skip u).trans hu⟩

theorem yields_list {n : Nat} {right : Cmd} (k : Nat)
    (hpipe : Yields es (parsepipe es n s) cmd (List.replicate k (.sym .amp) ++ .sym .semi :: us))
    (hn : k < n) {vs : List Token}
    (hright : ∀ t, lex es t = us → Yields es (parseline es n t) right vs) :
    Yields es (parseline es (n + 1) s) (.list (backs k cmd) right) vs := by
  rw [parseline]
  refine hpipe.bind fun t ht => ?_
  refine (yields_backs k cmd ht rfl hn).bind fun u hu => ?_
  have hsemi : starts [ch ';'] (lex es u) = true := by
    rw [hu]
    rfl
  obtain ⟨q, eq, v, htok, hv⟩ := gettoken_sym ((lex_skip u).trans hu)
  simp only [peek_eq es (symbols_of_mem (show ch ';' ∈ symbols by decide)), hsemi, htok, if_true]
  exact (hright v hv).bind fun w hw => ⟨w, rfl, hw⟩

end Yields

theorem Stops.backs {us : List Token} (k : Nat) (h : Stops .pipe us) :
    Stops .pipe (List.replicate k (.sym .amp) ++ us) := by
  cases k with
  | zero => exact h
  | succ k => exact .inr rfl

theorem yields {nt : Nt} {ts us : List Token} {cmd : Cmd} (h : Derives nt ts cmd)
    (hlex : lex es s = ts ++ us) (hus : Stops nt us) (hn : 4 * ts.length + nt.depth ≤ n) :
    Yields es (nt.parse es n s) cmd us := by
  induction h generalizing s us n with
  | @block ts ts' cmd rs _ hr ih =>
    rw [List.length_cons, List.length_append, List.length_cons, Nt.depth] at hn
    rw [List.cons_append, List.append_assoc, List.cons_append] at hlex
    obtain ⟨n, rfl⟩ : ∃ m, n = m + 2 := ⟨n - 2, by omega⟩
    have hopen : starts [ch '('] (lex es s) = true := by
      rw [hlex]
      rfl
    rw [Nt.parse, parseexec, peek_eq es (symbols_of_mem (by decide)), hopen]
    simp only [if_true]
    refine yields_block hr ((lex_skip s).trans hlex) hus (by omega) fun t ht => ?_
    exact ih ht (.inr rfl) (by rw [Nt.depth]; omega)
  | words hr hw hlt =>
    rw [List.length_append, Nt.depth] at hn
    obtain ⟨n, rfl⟩ : ∃ m, n = m + 1 := ⟨n - 1, by omega⟩
    exact yields_exec hr hw hlt hlex hus (by omega)
  | single _ ih =>
    rw [Nt.depth] at hn
    obtain ⟨n, rfl⟩ : ∃ m, n = m + 1 := ⟨n - 1, by omega⟩
    exact yields_single (ih hlex (hus.mono (by decide +kernel)) (by rw [Nt.depth]; omega)) hus
  | pipe _ _ ih ih' =>
    rw [List.length_append, List.length_cons, Nt.depth] at hn
    rw [List.append_assoc, List.cons_append] at hlex
    obtain ⟨n, rfl⟩ : ∃ m, n = m + 1 := ⟨n - 1, by omega⟩
    refine yields_pipe (ih hlex (.inr rfl) (by rw [Nt.depth]; omega)) fun t ht => ?_
    exact ih' ht hus (by rw [Nt.depth]; omega)
  | last k _ ih =>
    rw [List.length_append, List.length_replicate, Nt.depth] at hn
    rw [List.append_assoc] at hlex
    obtain ⟨n, rfl⟩ : ∃ m, n = m + 1 := ⟨n - 1, by omega⟩
    have hstop : Stops .pipe us := hus.mono (by decide +kernel)
    exact yields_last k (ih hlex (hstop.backs k) (by rw [Nt.depth]; omega)) hus (by omega)
  | list k _ _ ih ih' =>
    rw [List.length_append, List.length_append, List.length_replicate, List.length_cons,
      Nt.depth] at hn
    rw [List.append_assoc, List.append_assoc, List.cons_append] at hlex
    obtain ⟨n, rfl⟩ : ∃ m, n = m + 1 := ⟨n - 1, by omega⟩
    have hstop : ∀ vs, Stops .pipe (.sym .semi :: vs) := fun vs => .inr rfl
    refine yields_list k (ih hlex ((hstop _).backs k) (by rw [Nt.depth]; omega)) (by omega)
      fun t ht => ?_
    exact ih' ht hus (by rw [Nt.depth]; omega)

/-! ## parsecmd -/

theorem nulArgs_argvOf {ws : List (Nat × Nat)} (h : ws.length < MAXARGS) (buf : List UInt8) :
    ∃ buf', nulArgs (argvOf ws) buf = .ok buf' := by
  obtain ⟨k, hk⟩ : ∃ k, MAXARGS - ws.length = k + 1 := ⟨MAXARGS - ws.length - 1, by omega⟩
  rw [argvOf, hk]
  clear h hk
  induction ws generalizing buf with
  | nil => exact ⟨buf, rfl⟩
  | cons w ws ih => exact ih (buf.set w.2 0)

theorem nulterminate_wrap {cmd : Cmd} (rs : List Redirection)
    (h : ∀ buf, ∃ buf', nulterminate cmd buf = .ok buf') (buf : List UInt8) :
    ∃ buf', nulterminate (wrap rs cmd) buf = .ok buf' := by
  induction rs using List.reverseRecOn with
  | nil => exact h buf
  | append_singleton rs r ih =>
    obtain ⟨buf', hbuf⟩ := ih
    refine ⟨buf'.set r.efile 0, ?_⟩
    rw [wrap_append]
    change nulterminate (.redir (wrap rs cmd) r.file r.efile r.mode r.fd) buf = _
    rw [nulterminate, hbuf]
    rfl

theorem nulterminate_backs (k : Nat) (cmd : Cmd) (buf : List UInt8) :
    nulterminate (backs k cmd) buf = nulterminate cmd buf := by
  induction k generalizing cmd with
  | zero => rfl
  | succ k ih =>
    rw [backs, ih]
    rfl

theorem Derives.nulterminate {nt : Nt} {ts : List Token} {cmd : Cmd} (h : Derives nt ts cmd)
    (buf : List UInt8) : ∃ buf', nulterminate cmd buf = .ok buf' := by
  induction h generalizing buf with
  | block _ hr ih => exact nulterminate_wrap _ ih buf
  | words hr hw hlt =>
    refine nulterminate_wrap _ (fun buf => ?_) buf
    exact nulArgs_argvOf hlt buf
  | single _ ih => exact ih buf
  | pipe _ _ ih ih' =>
    obtain ⟨buf₁, h₁⟩ := ih buf
    obtain ⟨buf₂, h₂⟩ := ih' buf₁
    exact ⟨buf₂, by rw [Shell.nulterminate, h₁]; exact h₂⟩
  | last k _ ih =>
    rw [nulterminate_backs]
    exact ih buf
  | list k _ _ ih ih' =>
    obtain ⟨buf₁, h₁⟩ := ih buf
    obtain ⟨buf₂, h₂⟩ := ih' buf₁
    exact ⟨buf₂, by rw [Shell.nulterminate, nulterminate_backs, h₁]; exact h₂⟩

theorem lex_eq_nil {s : Cursor} : lex es s = [] ↔ skip s = [] := by
  constructor
  · intro h
    by_contra hne
    obtain ⟨c, t, hq⟩ := List.exists_cons_of_ne_nil hne
    obtain ⟨q, eq, rest, htok, _⟩ := gettoken_nil h
    have hscan : (scan (c :: t)).1 = .eof := by
      rw [← hq]
      exact congrArg Prod.fst htok
    rcases (scan_cons (s := t) (skip_cons hq)).2 with ⟨x, hx, _⟩ | ⟨hx, _⟩
    · rw [hx] at hscan
      exact Tok.noConfusion hscan
    · rw [hx] at hscan
      exact Tok.noConfusion hscan
  · intro h
    rw [← lex_skip, h]
    rfl

theorem peek_nil (s : Cursor) : peek s [] = (false, skip s) := by
  rw [peek_eq 0 (by simp)]
  cases lex 0 s with
  | nil => rfl
  | cons t ts => cases t <;> rfl

section

variable {buf : List UInt8} (hn : 4 * (tokens buf).length + 5 ≤ n)
include hn

theorem parsecmd_of_derives {cmd : Cmd} (hd : Derives .line (tokens buf) cmd) :
    ∃ buf', parsecmd n buf = .ok (cmd, buf') := by
  have hlex : lex (text buf).length (text buf) = tokens buf ++ [] := (List.append_nil _).symm
  obtain ⟨t, hout, ht⟩ := yields hd hlex (.inl rfl) hn
  obtain ⟨buf', hbuf⟩ := hd.nulterminate buf
  change parseline _ n (text buf) = _ at hout
  refine ⟨buf', ?_⟩
  simp only [parsecmd, hout, hbuf, peek_nil, lex_eq_nil.1 ht, bind, Except.bind, ne_eq,
    not_true, if_false]
  rfl

theorem parsecmd_cases : (∃ msg, parsecmd n buf = .error (.panic msg)) ∨
    ∃ cmd buf', parsecmd n buf = .ok (cmd, buf') ∧ Derives .line (tokens buf) cmd := by
  rcases parses n .line hn with ⟨msg, hout⟩ | ⟨cmd, t, ts, hout, hsplit, hd⟩
  · change parseline _ n (text buf) = _ at hout
    exact .inl ⟨msg, by rw [parsecmd, hout]; rfl⟩
  · change parseline _ n (text buf) = _ at hout
    by_cases hend : skip t = []
    · have hts : tokens buf = ts := by
        rw [tokens, hsplit, lex_eq_nil.2 hend, List.append_nil]
      rw [← hts] at hd
      obtain ⟨buf', hok⟩ := parsecmd_of_derives hn hd
      exact .inr ⟨cmd, buf', hok, hd⟩
    · refine .inl ⟨"syntax", ?_⟩
      rw [parsecmd, hout]
      simp only [peek_nil, bind, Except.bind, ne_eq, hend, not_false_eq_true, if_true]

end

/-- With fuel for the tokens of the line, `parsecmd` panics or returns a command; it returns
the command of a derivation of the tokens, and exactly when there is one. -/
theorem parsecmd_accepts (buf : List UInt8) (n : Nat) (hn : 4 * (tokens buf).length + 5 ≤ n) :
    ((∃ msg, parsecmd n buf = .error (.panic msg)) ∨
      ∃ cmd buf', parsecmd n buf = .ok (cmd, buf')) ∧
    ∀ cmd, (∃ buf', parsecmd n buf = .ok (cmd, buf')) ↔ Derives .line (tokens buf) cmd := by
  rcases parsecmd_cases hn with ⟨msg, hpanic⟩ | ⟨c, buf₁, hok, hd⟩
  · refine ⟨.inl ⟨msg, hpanic⟩, fun cmd => ⟨?_, parsecmd_of_derives hn⟩⟩
    rintro ⟨buf', hcmd⟩
    rw [hpanic] at hcmd
    cases hcmd
  · refine ⟨.inr ⟨c, buf₁, hok⟩, fun cmd => ⟨?_, parsecmd_of_derives hn⟩⟩
    rintro ⟨buf', hcmd⟩
    have hc : c = cmd := congrArg Prod.fst (Except.ok.inj (hok.symm.trans hcmd))
    rwa [← hc]

/-- The line `a<b&`. -/
theorem parsecmd_accepts_redirected :
    Derives .line (tokens [97, 60, 98, 38, 0])
      (.back (.redir (.exec (argvOf [(0, 1)])) 2 3 O_RDONLY 0)) :=
  ((parsecmd_accepts [97, 60, 98, 38, 0] 21 (by decide)).2 _).1 ⟨_, rfl⟩

end Xv6.Shell
