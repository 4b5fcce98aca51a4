import Xv6.Shell.Accepts

/-!
# The words of a command

`nulterminate` ends the words of a command in the line itself.  A word ends where a character is
that belongs to no word, so no NUL is written into another one.
-/

namespace Xv6.Shell

def wordChar (c : UInt8) : Bool := !whitespace.contains c && !symbols.contains c

def Cmd.words : Cmd → List (Nat × Nat)
  | .exec argv => (argv.takeWhile Option.isSome).reduceOption
  | .redir cmd file efile _ _ => cmd.words ++ [(file, efile)]
  | .pipe left right => left.words ++ right.words
  | .list left right => left.words ++ right.words
  | .back cmd => cmd.words

def endWords (ws : List (Nat × Nat)) (buf : List UInt8) : List UInt8 :=
  ws.foldl (fun buf w => buf.set w.2 0) buf

/-! ## What is written -/

theorem nulArgs_eq {argv : List Arg} {buf buf' : List UInt8} (h : nulArgs argv buf = .ok buf') :
    buf' = endWords (argv.takeWhile Option.isSome).reduceOption buf := by
  induction argv generalizing buf with
  | nil => cases h
  | cons a argv ih =>
    cases a with
    | none => exact (Except.ok.inj h).symm
    | some w => exact ih h

theorem nulterminate_eq {cmd : Cmd} {buf buf' : List UInt8}
    (h : nulterminate cmd buf = .ok buf') : buf' = endWords cmd.words buf := by
  induction cmd generalizing buf buf' with
  | exec argv => exact nulArgs_eq h
  | redir cmd file efile mode fd ih =>
    rw [nulterminate] at h
    cases hc : nulterminate cmd buf with
    | error e => rw [hc] at h; cases h
    | ok buf₁ =>
      rw [hc] at h
      obtain rfl : buf₁.set efile 0 = buf' := Except.ok.inj h
      rw [ih hc, Cmd.words, endWords, endWords, List.foldl_append]
      rfl
  | pipe left right ihl ihr | list left right ihl ihr =>
    rw [nulterminate] at h
    cases hc : nulterminate left buf with
    | error e => rw [hc] at h; cases h
    | ok buf₁ =>
      rw [hc] at h
      rw [ihr h, ihl hc, Cmd.words, endWords, endWords, endWords, List.foldl_append]
  | back cmd ih => exact ih h

theorem getElem?_endWords_of_notMem {ws : List (Nat × Nat)} {buf : List UInt8} {i : Nat}
    (h : ∀ w ∈ ws, w.2 ≠ i) : (endWords ws buf)[i]? = buf[i]? := by
  induction ws generalizing buf with
  | nil => rfl
  | cons w ws ih =>
    obtain ⟨hw, hws⟩ := List.forall_mem_cons.1 h
    exact (ih hws).trans (List.getElem?_set_ne hw)

theorem eq_zero_of_endWords {ws : List (Nat × Nat)} {buf : List UInt8} {w : Nat × Nat} {x : UInt8}
    (hw : w ∈ ws) (h : (endWords ws buf)[w.2]? = some x) : x = 0 := by
  induction ws using List.reverseRecOn with
  | nil => cases hw
  | append_singleton ws v ih =>
    rw [endWords, List.foldl_append] at h
    change ((endWords ws buf).set v.2 0)[w.2]? = some x at h
    rw [List.getElem?_set] at h
    split_ifs at h with hv hlt
    · exact (Option.some.inj h).symm
    · rcases List.mem_append.1 hw with hin | hlast
      · exact ih hin h
      · exact absurd (congrArg Prod.snd (List.mem_singleton.1 hlast)).symm hv

/-! ## The words are tokens -/

theorem words_wrap (rs : List Redirection) (cmd : Cmd) :
    (wrap rs cmd).words = cmd.words ++ rs.map fun r => (r.file, r.efile) := by
  induction rs generalizing cmd with
  | nil => exact (List.append_nil _).symm
  | cons r rs ih =>
    change (wrap rs (.redir cmd r.file r.efile r.mode r.fd)).words = _
    rw [ih, Cmd.words, List.append_assoc]
    rfl

theorem words_backs (k : Nat) (cmd : Cmd) : (backs k cmd).words = cmd.words := by
  induction k generalizing cmd with
  | zero => rfl
  | succ k ih => exact ih (.back cmd)

theorem words_argvOf (ws : List (Nat × Nat)) : (Cmd.exec (argvOf ws)).words = ws := by
  rw [Cmd.words, argvOf]
  generalize MAXARGS - ws.length = k
  induction ws with
  | nil => cases k <;> rfl
  | cons w ws ih => exact congrArg (w :: ·) ih

theorem Redirs.mem {ts : List Token} {rs : List Redirection} (h : Redirs ts rs) :
    ∀ r ∈ rs, Token.word r.file r.efile ∈ ts := by
  induction h with
  | nil => exact List.forall_mem_nil _
  | @cons x q eq r ts rs hr _ ih =>
    have hword : q = r.file ∧ eq = r.efile := by
      cases x <;> simp only [redirection, Option.some.injEq, reduceCtorEq] at hr <;>
        (subst hr; exact ⟨rfl, rfl⟩)
    refine List.forall_mem_cons.2 ⟨by simp [hword], fun r' hr' => ?_⟩
    exact List.mem_cons_of_mem _ (List.mem_cons_of_mem _ (ih r' hr'))

theorem Words.mem {ts : List Token} {ws : List (Nat × Nat)} {rs : List Redirection}
    (h : Words ts ws rs) : (∀ w ∈ ws, Token.word w.1 w.2 ∈ ts) ∧
      ∀ r ∈ rs, Token.word r.file r.efile ∈ ts := by
  induction h with
  | nil => exact ⟨List.forall_mem_nil _, List.forall_mem_nil _⟩
  | cons hr _ ih =>
    have hredirs := hr.mem
    grind

theorem Derives.mem {nt : Nt} {ts : List Token} {cmd : Cmd} (h : Derives nt ts cmd) :
    ∀ w ∈ cmd.words, Token.word w.1 w.2 ∈ ts := by
  induction h with
  | block _ hr ih =>
    have hredirs := hr.mem
    rw [words_wrap]
    grind
  | words hr hw _ =>
    have hredirs := hr.mem
    have hwords := hw.mem
    rw [words_wrap, words_argvOf]
    grind
  | single _ ih => exact ih
  | pipe _ _ ih ih' =>
    rw [Cmd.words]
    grind
  | last k _ ih =>
    rw [words_backs]
    grind
  | list k _ _ ih ih' =>
    rw [Cmd.words, words_backs]
    grind

/-! ## Where words end -/

theorem scan_suffix (q : Cursor) : (scan q).2 <:+ q := by
  unfold scan
  split
  · exact List.suffix_rfl
  · split
    · split_ifs
      · exact (List.tail_suffix _).trans (List.suffix_cons _ _)
      · exact List.suffix_cons _ _
    · exact List.suffix_cons _ _
    · exact List.dropWhile_suffix _

theorem scan_word {q : Cursor} (h : (scan q).1 = .word) : (scan q).2 = q.dropWhile wordChar := by
  unfold scan at h ⊢
  split at h
  · cases h
  · split at h
    · split_ifs at h
    · cases h
    · rfl

theorem lex_word {es a b : Nat} {s : Cursor} (h : Token.word a b ∈ lex es s) :
    ∃ c, c <:+ s ∧ off es c = a ∧ off es (c.dropWhile wordChar) = b := by
  induction hn : s.length using Nat.strong_induction_on generalizing s with
  | _ n ih =>
    subst hn
    have hlt := gettoken_length (s := s)
    have hq : skip s <:+ s := List.dropWhile_suffix _
    have hscan := scan_suffix (skip s)
    have hword := scan_word (q := skip s)
    rw [lex_eq] at h
    simp only [gettoken] at h hlt
    generalize scan (skip s) = sc at *
    obtain ⟨tok, eq⟩ := sc
    have hrest : skip eq <:+ s := ((List.dropWhile_suffix _).trans hscan).trans hq
    have hlater (hne : tok ≠ .eof) (hmem : Token.word a b ∈ lex es (skip eq)) :
        ∃ c, c <:+ s ∧ off es c = a ∧ off es (c.dropWhile wordChar) = b := by
      obtain ⟨c, hc, hab⟩ := ih _ (hlt hne) hmem rfl
      exact ⟨c, hc.trans hrest, hab⟩
    cases tok with
    | eof => cases h
    | sym x =>
      rcases List.mem_cons.1 h with h | h
      · cases h
      · exact hlater (by simp) h
    | word =>
      rcases List.mem_cons.1 h with h | h
      · obtain ⟨rfl, rfl⟩ := Token.word.inj h
        exact ⟨skip s, hq, rfl, by rw [← hword rfl]⟩
      · exact hlater (by simp) h

theorem tokens_word {buf : List UInt8} {a b : Nat} (h : Token.word a b ∈ tokens buf) :
    a ≤ b ∧ (∀ i, a ≤ i → i < b → ∃ x, (text buf)[i]? = some x ∧ wordChar x = true) ∧
      ∀ x, (text buf)[b]? = some x → wordChar x = false := by
  obtain ⟨c, ⟨p, hp⟩, rfl, rfl⟩ := lex_word h
  have hsplit : p ++ c.takeWhile wordChar ++ c.dropWhile wordChar = text buf := by
    rw [List.append_assoc, List.takeWhile_append_dropWhile, hp]
  have ha : off (text buf).length c = p.length := by
    rw [off, ← hp, List.length_append, Nat.add_sub_cancel]
  have hb : off (text buf).length (c.dropWhile wordChar) = (p ++ c.takeWhile wordChar).length := by
    rw [off, ← hsplit, List.length_append, Nat.add_sub_cancel]
  rw [ha, hb, ← hsplit]
  refine ⟨by rw [List.length_append]; omega, ?_, ?_⟩
  · intro i hlo hhi
    rw [List.getElem?_append_left hhi, List.getElem?_append_right hlo]
    rw [List.length_append] at hhi
    have hi : i - p.length < (c.takeWhile wordChar).length := by omega
    exact ⟨_, List.getElem?_eq_getElem hi, List.mem_takeWhile_imp (List.getElem_mem hi)⟩
  · intro x hx
    rw [List.getElem?_append_right (Nat.le_refl _), Nat.sub_self, ← List.head?_eq_getElem?] at hx
    have hhead := List.head?_dropWhile_not wordChar c
    rw [hx] at hhead
    simpa using hhead

theorem text_eq_take {l l' : List UInt8} {n : Nat}
    (hin : ∀ i < n, ∃ x, x ≠ 0 ∧ l[i]? = some x ∧ l'[i]? = some x)
    (hend : ∀ x, l[n]? = some x → x = 0) : text l = l'.take n := by
  induction n generalizing l l' with
  | zero =>
    cases l with
    | nil => rfl
    | cons c l => simp [text, hend c rfl]
  | succ n ih =>
    obtain ⟨x, hne, hx, hx'⟩ := hin 0 (Nat.succ_pos n)
    obtain ⟨l, rfl⟩ := List.head?_eq_some_iff.1 (List.head?_eq_getElem?.trans hx)
    obtain ⟨l', rfl⟩ := List.head?_eq_some_iff.1 (List.head?_eq_getElem?.trans hx')
    have hrest := ih (l := l) (fun i hi => hin (i + 1) (Nat.succ_lt_succ hi)) hend
    simpa [text, hne] using hrest

theorem nulterminate_of_parsecmd {buf buf' : List UInt8} {n : Nat} {cmd : Cmd}
    (hok : parsecmd n buf = .ok (cmd, buf')) : nulterminate cmd buf = .ok buf' := by
  unfold parsecmd at hok
  cases hline : parseline (text buf).length n (text buf) with
  | error e => rw [hline] at hok; cases hok
  | ok r =>
    rw [hline] at hok
    simp only [bind, Except.bind] at hok
    split_ifs at hok
    cases hnul : nulterminate r.1 buf with
    | error e => rw [hnul] at hok; cases hok
    | ok buf₁ =>
      rw [hnul] at hok
      obtain ⟨rfl, rfl⟩ := Prod.mk.inj (Except.ok.inj hok)
      exact hnul

theorem getElem?_text {buf : List UInt8} {i : Nat} {x : UInt8} (h : (text buf)[i]? = some x) :
    x ≠ 0 ∧ buf[i]? = some x := by
  obtain ⟨rest, hrest⟩ : text buf <+: buf := List.takeWhile_prefix _
  refine ⟨by simpa using List.mem_takeWhile_imp (List.mem_of_getElem? h), ?_⟩
  rw [← hrest, List.getElem?_append_left (List.getElem?_eq_some_iff.1 h).1]
  exact h

/-- Every string of the command that `parsecmd` returns is, in the line as it leaves it, a word of
the line as it was. -/
theorem parsecmd_words (buf : List UInt8) (n : Nat) (hn : 4 * (tokens buf).length + 5 ≤ n)
    (cmd : Cmd) (buf' : List UInt8) (hok : parsecmd n buf = .ok (cmd, buf')) :
    ∀ w ∈ cmd.words, Token.word w.1 w.2 ∈ tokens buf ∧
      text (buf'.drop w.1) = (buf.drop w.1).take (w.2 - w.1) := by
  obtain rfl := nulterminate_eq (nulterminate_of_parsecmd hok)
  have hmem : ∀ w ∈ cmd.words, Token.word w.1 w.2 ∈ tokens buf := by
    rcases parsecmd_cases hn with ⟨msg, hpanic⟩ | ⟨c, buf₁, hc, hd⟩
    · rw [hpanic] at hok
      cases hok
    · obtain ⟨rfl, -⟩ := Prod.mk.inj (Except.ok.inj (hc.symm.trans hok))
      exact hd.mem
  intro w hw
  obtain ⟨hle, hin, -⟩ := tokens_word (hmem w hw)
  refine ⟨hmem w hw, text_eq_take ?_ ?_⟩
  · intro i hi
    obtain ⟨x, hx, hword⟩ := hin (w.1 + i) (by omega) (by omega)
    obtain ⟨hne, hbuf⟩ := getElem?_text hx
    -- no word ends inside of this one
    have hapart : ∀ v ∈ cmd.words, v.2 ≠ w.1 + i := by
      intro v hv heq
      rw [← heq] at hx
      rw [(tokens_word (hmem v hv)).2.2 x hx] at hword
      cases hword
    rw [List.getElem?_drop, List.getElem?_drop, getElem?_endWords_of_notMem hapart]
    exact ⟨x, hne, hbuf, hbuf⟩
  · intro x hx
    rw [List.getElem?_drop, Nat.add_sub_cancel' hle] at hx
    exact eq_zero_of_endWords hw hx

/-- The line `a<b&`. -/
theorem parsecmd_words_redirected : ∃ cmd buf', cmd.words = [(0, 1), (2, 3)] ∧
    parsecmd 21 [97, 60, 98, 38, 0] = .ok (cmd, buf') ∧ text (buf'.drop 2) = [98] :=
  ⟨_, _, rfl, rfl, (parsecmd_words [97, 60, 98, 38, 0] 21 (by decide) _ _ rfl (2, 3) (by decide)).2⟩

end Xv6.Shell
