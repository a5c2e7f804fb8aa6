import GrammarText.Proofs.Parsing.Notation

/-!
# Refusals: an error names the first token that is wrong

The error for a list of tokens that the parser refuses is made of the misses that lie farthest to
the right.  It names the first token with which the list is no longer the start of a list that is
accepted, and it names just what could have come there (`Tree.ofTokens_refusal`).
-/

namespace GrammarText

/-- Tokens that a list which the parser accepts begins with. -/
def Viable (tokens : List Token) : Prop := ∃ more t, Tree.ofTokens (tokens ++ more) = .ok t

/-! ## The farthest misses -/

section Farthest

variable {total : Nat} {misses : List Miss} {m : Miss}

theorem farthestLeft_cons (total : Nat) (m : Miss) (misses : List Miss) :
    farthestLeft total (m :: misses) = farthestLeft (min total m.left) misses := rfl

theorem farthestLeft_le (total : Nat) (misses : List Miss) :
    farthestLeft total misses ≤ total := by
  induction misses generalizing total with
  | nil => exact Nat.le_refl _
  | cons m misses ih => exact Nat.le_trans (ih _) (Nat.min_le_left _ _)

theorem farthestLeft_le_of_mem (h : m ∈ misses) : farthestLeft total misses ≤ m.left := by
  induction misses generalizing total with
  | nil => cases h
  | cons n misses ih =>
    rw [farthestLeft_cons]
    rcases List.mem_cons.mp h with rfl | h
    · exact Nat.le_trans (farthestLeft_le _ _) (Nat.min_le_right _ _)
    · exact ih h

theorem farthestLeft_eq_or (total : Nat) (misses : List Miss) :
    farthestLeft total misses = total ∨ ∃ m ∈ misses, m.left = farthestLeft total misses := by
  induction misses generalizing total with
  | nil => exact .inl rfl
  | cons n misses ih =>
    rw [farthestLeft_cons]
    rcases ih (min total n.left) with h | ⟨m, hm, h⟩
    · rw [h]
      rcases Nat.le_total total n.left with hle | hle
      · exact .inl (Nat.min_eq_left hle)
      · exact .inr ⟨n, List.mem_cons_self, (Nat.min_eq_right hle).symm⟩
    · exact .inr ⟨m, List.mem_cons_of_mem _ hm, h⟩

/-- Some miss among the tokens lies as far as any. -/
theorem exists_farthest (h : ∃ m ∈ misses, m.left ≤ total) :
    ∃ m ∈ misses, m.left = farthestLeft total misses := by
  rcases farthestLeft_eq_or total misses with heq | hm
  · obtain ⟨m, hm, hle⟩ := h
    have hfar : farthestLeft total misses ≤ m.left := farthestLeft_le_of_mem hm
    exact ⟨m, hm, by omega⟩
  · exact hm

end Farthest

/-- Two wants for one token are the same, but for reserved words as a class. -/
theorem Wanted.eq_of_accepts {v w : Wanted} {t : Token} (hv : v.accepts t = true)
    (hw : w.accepts t = true) (hvr : v ≠ .kind .reserved) (hwr : w ≠ .kind .reserved) : v = w := by
  refine Classical.byContradiction fun hne => ?_
  have hapart : v.apart w = true := by
    cases v <;> cases w <;> simp_all [apart]
  simp [not_accepts_of_apart hapart hv] at hw

/-! ## Trees and refusals -/

namespace Tree

variable {tokens pre ahead : List Token} {t : Token}

/-- What is derived as a whole is accepted. -/
theorem exists_ofTokens_of_whole (h : ∀ close, Description.builtin.Whole close tokens) :
    ∃ t, ofTokens tokens = .ok t := by
  obtain ⟨ts, hd⟩ := h (closeOf tokens)
  obtain ⟨t, rfl⟩ := hd.exists_tree
  exact ⟨t, ofTokens_of_derivationOf hd⟩

/-- A list that is refused has a trace without a peek that finds what it asks for, and all that the
trace asks for could have come. -/
theorem exists_trace_of_error {e : ParseError} (hend : Ended tokens)
    (h : ofTokens tokens = .error e) :
    ∃ ms, Trace .builtin (closeOf tokens) False (.matcher (.rule Description.builtin.start)) tokens
      ms none ∧ (∀ m ∈ ms, m.Sound .builtin tokens) ∧
      e = farthestError tokens (closeOf tokens) ms := by
  have hno : ¬ Description.builtin.Whole (closeOf tokens) tokens := by
    rintro ⟨ts, hd⟩
    obtain ⟨t, rfl⟩ := hd.exists_tree
    simp [ofTokens_of_derivationOf hd] at h
  obtain ⟨ms, res, htrace, ⟨t, rest, -, -, hok⟩ | ⟨hrest, herror⟩⟩ :=
    Description.exists_trace Description.builtin_ranking tokens
  · simp [ofTokens, hok] at h
  · cases res with
    | none =>
      obtain ⟨ht, hms⟩ := htrace.sound_start Description.builtin_orderly hend hno
      refine ⟨ms, ht, hms, ?_⟩
      simpa [ofTokens, herror] using h.symm
    | some r =>
      obtain ⟨ts, rest⟩ := r
      obtain rfl := rest_eq_nil hend htrace
      exact absurd (hrest ts [] rfl) (by simp [atEnd])

/-- A token with which the tokens before the farthest misses could go on was asked for there. -/
theorem exists_asked {close : Nat} {ms : List Miss}
    (h : Trace .builtin close False (.matcher (.rule Description.builtin.start)) (pre ++ ahead) ms
      none) (hfar : ∀ m ∈ ms, ahead.length ≤ m.left) (hv : Viable (pre ++ [t])) :
    ∃ m ∈ ms, m.left = ahead.length ∧ m.wanted.accepts t = true := by
  refine Classical.byContradiction fun hne => ?_
  obtain ⟨more, tree, hok⟩ := hv
  rw [List.append_assoc, List.singleton_append] at hok
  obtain ⟨ms', res', htrace, ⟨u, rest, rfl, -, -⟩ | ⟨-, herror⟩⟩ :=
    Description.exists_trace Description.builtin_ranking (pre ++ t :: more)
  · have hy : ∀ m ∈ ms, m.left = ahead.length → ∀ s ∈ (t :: more).head?,
        m.wanted.accepts s = false := by
      intro m hm hl s hs
      obtain rfl : t = s := by simpa using hs
      exact Bool.eq_false_iff.mpr fun hacc => hne ⟨m, hm, hl, hacc⟩
    -- The same trace would find nothing in a list that is accepted.
    obtain ⟨ms'', hreplay⟩ := replays_none_iff.mp
      (h.replay Description.builtin_orderly.total (closeOf (pre ++ t :: more)) rfl hfar hy)
    obtain ⟨taken, htok, hd⟩ := htrace.derives rfl
    have := hreplay.finds Description.builtin_predictive taken rest [u] htok
      (Description.builtin_follows_start rest) hd
    simp at this
  · simp [ofTokens, herror] at hok

/-- What was asked for after some tokens of a list could have come there. -/
theorem viable_of_sound {m : Miss} (h : m.Sound .builtin (pre ++ ahead))
    (hl : m.left = ahead.length) (ht : m.wanted.accepts t = true) : Viable (pre ++ [t]) := by
  obtain ⟨v, hv⟩ := (h.at_place hl).2 t ht
  obtain ⟨tree, hok⟩ := exists_ofTokens_of_whole hv
  exact ⟨v, tree, by simpa using hok⟩

/-- The farthest misses of a list that ends with the end of a text lie before one of its tokens. -/
theorem ahead_ne_nil {m : Miss} (hend : Ended (pre ++ ahead))
    (h : m.Sound .builtin (pre ++ ahead)) (hl : m.left = ahead.length) : ahead ≠ [] := by
  rintro rfl
  obtain ⟨v, hv⟩ := (h.at_place hl).2 _ m.wanted.accepts_sample
  have hfree := Description.builtin_orderly.isEof_of_whole (hv 0)
  obtain ⟨body, e, htok, he, -⟩ := hend
  simp [hfree e (by simp_all)] at he

theorem farthestError_eq {rest : List Token} {close : Nat} {ms : List Miss}
    (hl : farthestLeft (pre ++ t :: rest).length ms = (t :: rest).length) :
    farthestError (pre ++ t :: rest) close ms =
      let phrases := sortedDistinct
        (((ms.filter (·.left = (t :: rest).length)).map Miss.wanted).map Wanted.phrase)
      if t.isEof then .unexpectedEnd (listing phrases) (.point t.start)
        else .unexpectedToken (listing phrases) ⟨t.start, max t.stop (t.start + 1)⟩ := by
  have hdrop : (pre ++ t :: rest).drop ((pre ++ t :: rest).length - (t :: rest).length) =
      t :: rest := by simp
  rw [farthestError, hl]
  simp only [hdrop, expectation]

/-- Where the parser refuses a list of tokens, there is a first token with which the list is no
longer the beginning of a list that is accepted.  The error is placed at that token, and names, in
ascending order and each once, the classes of tokens and the reserved words that could have come
there. -/
theorem ofTokens_refusal {e : ParseError} (hend : Ended tokens) (h : ofTokens tokens = .error e) :
    ∃ k t phrases, tokens[k]? = some t ∧
      e = (if t.isEof then .unexpectedEnd (listing phrases) (.point t.start)
        else .unexpectedToken (listing phrases) ⟨t.start, max t.stop (t.start + 1)⟩) ∧
      Viable (tokens.take k) ∧ ¬ Viable (tokens.take (k + 1)) ∧
      phrases.Pairwise (· < ·) ∧
      ∀ d, d ∈ phrases ↔ ∃ c : Wanted, c ≠ .kind .reserved ∧ c.phrase = d ∧
        ∃ s : Token, c.accepts s = true ∧ Viable (tokens.take k ++ [s]) := by
  obtain ⟨ms, htrace, hms, rfl⟩ := exists_trace_of_error hend h
  -- The place of one of the farthest misses is that of the error.
  obtain ⟨m, hm, hleft⟩ :=
    exists_farthest (htrace.exists_miss Description.builtin_orderly.total rfl)
  obtain ⟨pre, ahead, rfl, hl, -⟩ := (hms m hm).place
  cases ahead with
  | nil => exact absurd rfl (ahead_ne_nil hend (hms m hm) hl)
  | cons t rest =>
    have hfar : ∀ m ∈ ms, (t :: rest).length ≤ m.left := by
      intro n hn
      rw [← hl, hleft]
      exact farthestLeft_le_of_mem hn
    have htake : (pre ++ t :: rest).take pre.length = pre := by simp
    have htake' : (pre ++ t :: rest).take (pre.length + 1) = pre ++ [t] := by
      rw [← List.singleton_append, ← List.append_assoc]
      exact List.take_left' (by simp)
    refine ⟨pre.length, t, _, by simp, farthestError_eq (hleft.symm.trans hl), ?_, ?_,
      pairwise_sortedDistinct _, fun d => ?_⟩
    · rw [htake]
      obtain ⟨more, tree, hok⟩ := viable_of_sound (hms m hm) hl m.wanted.accepts_sample
      exact ⟨m.wanted.sample :: more, tree, by simpa using hok⟩
    · -- Otherwise the token there would have been asked for, but what is asked for is missing.
      rw [htake']
      intro hv
      obtain ⟨n, hn, hnl, hacc⟩ := exists_asked htrace hfar hv
      have := ((hms n hn).at_place hnl).1 t rfl
      simp [hacc] at this
    · rw [htake, mem_sortedDistinct]
      constructor
      · intro hd
        simp only [List.map_map, List.mem_map, List.mem_filter] at hd
        obtain ⟨n, ⟨hn, hnl⟩, rfl⟩ := hd
        have hnl : n.left = (t :: rest).length := by simpa using hnl
        exact ⟨n.wanted, (hms n hn).not_reserved, rfl, n.wanted.sample,
          n.wanted.accepts_sample, viable_of_sound (hms n hn) hnl n.wanted.accepts_sample⟩
      · -- What could have come was asked for, and no other class or word accepts it.
        rintro ⟨c, hc, rfl, s, hacc, hv⟩
        obtain ⟨n, hn, hnl, hacc'⟩ := exists_asked htrace hfar hv
        obtain rfl := Wanted.eq_of_accepts hacc hacc' hc (hms n hn).not_reserved
        simp only [List.map_map, List.mem_map, List.mem_filter]
        exact ⟨n, ⟨hn, by simpa using hnl⟩, rfl⟩

/-- A name alone is the beginning of a list that is accepted, up to some place. -/
theorem ofTokens_refusal_name :
    let tokens : List Token := [⟨.nonterminal "A", 0, 1⟩, ⟨.eof, 1, 1⟩]
    Ended tokens ∧ ∃ e, ofTokens tokens = .error e ∧ ∃ k t, tokens[k]? = some t ∧
      Viable (tokens.take k) ∧ ¬ Viable (tokens.take (k + 1)) := by
  intro tokens
  have hended : Ended tokens := ⟨tokens.dropLast, ⟨.eof, 1, 1⟩, rfl, rfl, by decide⟩
  have herror : (ofTokens tokens).isOk = false := by decide +kernel
  cases h : ofTokens tokens with
  | ok t => simp [h, Except.isOk, Except.toBool] at herror
  | error e =>
    obtain ⟨k, t, phrases, ht, -, hviable, hnot, -⟩ := ofTokens_refusal hended h
    exact ⟨hended, e, rfl, k, t, ht, hviable, hnot⟩

end Tree
end GrammarText
