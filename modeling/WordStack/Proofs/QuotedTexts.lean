import WordStack.Proofs.NamePlaces
import WordStack.Proofs.Provenance
import WordStack.Proofs.StackDump

/-
  Quoted texts as source texts. What `Text.quote` makes of a text is read back for no text at all:
  the word that begins a literal needs a blank after it, so the opening quote is read together with
  what follows it, as a word that is unknown (`run_quote_of_ink`); and where the text itself begins
  with a space, the word takes that space and does not read the escapes (`run_quote_of_space`).
  `quoted_text_not_read_back`: so a run of a quoted text never leaves the text. A source text that
  leaves it is there for every text without a quote, and for no other.
-/
namespace WordStack

open Machine

namespace Text

/-- The first word of a quoted text that does not begin with a blank. -/
def quotedWord (s : String) : String := String.ofList ((quote s).toList.takeWhile isInk)

/-- A text as a literal of the language. -/
def literal (s : String) : String := "\" " ++ s ++ "\""

variable {s t : String} {c d : Char} {cs ds : List Char}

/-! ## Quoted characters -/

/-- Of the blanks only a space stands for itself. -/
theorem quoteChar_head (hc : c ≠ ' ') : ∃ d ds, quoteChar c = d :: ds ∧ isInk d = true := by
  rcases quoteChar_cases c with ⟨heq, -⟩ | ⟨e, heq, -⟩
  · refine ⟨c, [], heq, Bool.of_not_eq_false fun hink => ?_⟩
    unfold isInk isBlank at hink
    simp only [Bool.not_eq_false', Bool.or_eq_true, decide_eq_true_eq] at hink
    rcases hink with ((rfl | rfl) | rfl) | rfl
    · exact hc rfl
    · exact absurd heq (by decide)
    · exact absurd heq (by decide)
    · exact absurd heq (by decide)
  · exact ⟨'\\', [e], heq, rfl⟩

theorem quote_not_mem_flatMap (h : '"' ∉ cs) : '"' ∉ cs.flatMap quoteChar := by
  intro hmem
  obtain ⟨c, hc, hmem⟩ := List.mem_flatMap.mp hmem
  rcases quoteChar_cases c with ⟨heq, hne, -⟩ | ⟨e, heq, he, -⟩ <;> rw [heq] at hmem
  · exact hne (List.mem_singleton.mp hmem).symm
  · rcases List.mem_cons.mp hmem with hmem | hmem
    · exact absurd hmem (by decide)
    · obtain rfl := List.mem_singleton.mp hmem
      obtain rfl : '"' = c := he
      exact h hc

/-- Quoting does not add a space. -/
theorem flatMap_quoteChar_ne (cs : List Char) : cs.flatMap quoteChar ≠ ' ' :: cs := by
  -- Every character of the text would have to be a space, up to the end, where one is missing.
  induction cs with
  | nil => nofun
  | cons c cs ih =>
    intro h
    rw [List.flatMap_cons] at h
    rcases quoteChar_cases c with ⟨heq, -⟩ | ⟨e, heq, -⟩ <;> rw [heq] at h
    · obtain ⟨rfl, hrest⟩ := List.cons.inj h
      exact ih hrest
    · exact absurd (List.cons.inj h).1 (by decide)

/-- The opening quote is not a word of its own. -/
theorem quotedWord_eq (h : s.toList.head? ≠ some ' ') :
    ∃ c cs, (quotedWord s).toList = '"' :: c :: cs ∧ isInk c = true := by
  unfold quotedWord
  rw [String.toList_ofList, toList_quote, List.takeWhile_cons_of_pos rfl]
  cases hs : s.toList with
  | nil => exact ⟨'"', [], rfl, rfl⟩
  | cons x xs =>
    have hx : x ≠ ' ' := fun hx => h (by rw [hs, hx]; rfl)
    obtain ⟨c, cs, hquoted, hc⟩ := quoteChar_head hx
    rw [List.flatMap_cons, hquoted, List.cons_append, List.cons_append,
      List.takeWhile_cons_of_pos hc]
    exact ⟨c, _, rfl, hc⟩

end Text

variable {m : Machine}

theorem endsWord_dropWhile (cs : List Char) : EndsWord (cs.dropWhile isInk) := by
  intro c hc
  have hnot := List.head?_dropWhile_not isInk cs
  rw [hc] at hnot
  simpa [isInk] using hnot

/-! ## Words with a quote at the start -/

/-- The only built-in word that begins with a quote is the quote. -/
theorem Machine.fresh_get?_of_quote {s : String} {c : Char} {cs : List Char}
    (hs : s.toList = '"' :: c :: cs) (hc : isInk c = true) : fresh.dictionary.get? s = none := by
  have hkeys : ∀ key ∈ fresh.dictionary.keys, key.toList.head? = some '"' → key = "\"" := by
    decide +kernel
  cases hw : fresh.dictionary.get? s with
  | none => rfl
  | some w =>
    have hmem := List.mem_map_of_mem (f := Prod.fst) (Dictionary.mem_of_get? hw)
    have hupper : (Text.uppercase s).toList =
        '"' :: (Text.uppercaseChar c ++ cs.flatMap Text.uppercaseChar) := by
      rw [Text.toList_uppercase, hs]
      rfl
    have hkey : Text.uppercase s = "\"" := hkeys _ hmem (congrArg List.head? hupper)
    rw [hkey] at hupper
    have hnil := (List.cons.inj hupper).2.symm
    exact absurd (List.append_eq_nil_iff.mp hnil).1 (Text.uppercaseChar_ink hc).1

theorem Number.parse?_of_quote {s : String} {cs : List Char} (hs : s.toList = '"' :: cs) :
    parse? s = none := by
  rw [← Option.not_isSome_iff_eq_none, parse?_isSome, magnitude?_isSome_iff, hs]
  exact not_magnitude_of_head rfl (by decide) (by decide)

/-! ## Runs of quoted texts -/

/-- A run of a text that begins with an unknown word ends with it. -/
theorem Machine.run_of_unknown {source : String} {word tail : List Char}
    (hsource : source.toList = word ++ tail) (hword : IsWord word) (htail : EndsWord tail)
    (hget : m.dictionary.get? (String.ofList word) = none)
    (hx : Number.parse? (Text.uppercase (String.ofList word)) = none) (depth : Nat)
    (path : String) : run (.nested depth) path source m =
      .error (.failed ⟨some (.start path), .unknownWord (Text.uppercase (String.ofList word)),
        some m.calls⟩) { m with location := some (.start path) } := by
  obtain ⟨s, hs, -⟩ := Reader.nextWord_of_isWord hword htail (.start path)
  have hr : (Reader.ofText path source).nextWord = (some ⟨String.ofList word, .start path⟩, s) := by
    rw [← hs, ← hsource]
    rfl
  have hread := readOn_of_token depth (m := pushReader (.ofText path source) m) rfl hr
  rw [← Dictionary.get?_uppercase] at hget
  have hunknown := runToken_unknown (.nested depth) (t := ⟨String.ofList word, .start path⟩)
    (m := { m with readers := s :: m.readers }) hget hx
  rw [run_eq]
  exact between_error (hread.trans (bind_error hunknown _))

/-- A literal is read as it stands, and the run is over. -/
theorem Machine.run_of_literal {source : String} {cs : List Char}
    (hsource : source.toList = '"' :: ' ' :: (cs ++ ['"'])) (hcs : '"' ∉ cs)
    (hd : m.dictionary.Stands "\"" .textLiteral) (hmode : m.mode = .interpreting) (depth : Nat)
    (path : String) : ∃ n, run (.nested depth) path source m = .ok () n ∧
      n.data = .text (String.ofList cs) :: m.data := by
  have hr : Reader.ofText path source = ⟨'"' :: ' ' :: (cs ++ ['"']), .start path⟩ := by
    unfold Reader.ofText
    rw [hsource]
  have hreaches : Reaches depth (pushReader (.ofText path source) m) _ [] m.readers :=
    reaches_text hd rfl hcs (congrArg (· :: m.readers) hr)
  obtain ⟨l, k, es, hread⟩ := hreaches
  have hend : (⟨[], l⟩ : Reader).nextWord = (none, ⟨[], l⟩) := rfl
  have hactive : (pushReader (.ofText path source) m).mode = .interpreting := hmode
  rw [withActive_of_interpreting hactive] at hread
  rw [run_eq]
  refine ⟨_, between_ok (hread.trans (readOn_of_none _ rfl hend)), ?_⟩
  exact congrArg (_ :: ·) (active_of_interpreting hactive)

variable {t : String}

theorem run_quote_of_ink (ht : t.toList.head? ≠ some ' ') (depth : Nat) (path : String) :
    run (.nested depth) path (Text.quote t) .fresh =
      .error (.failed ⟨some (.start path), .unknownWord (Text.uppercase (Text.quotedWord t)),
        some []⟩) { fresh with location := some (.start path) } := by
  obtain ⟨c, cs, hword, hc⟩ := Text.quotedWord_eq ht
  have hisWord : IsWord ((Text.quote t).toList.takeWhile isInk) := by
    refine ⟨fun hnil => ?_, fun _ h => List.mem_takeWhile_imp h⟩
    unfold Text.quotedWord at hword
    rw [String.toList_ofList, hnil] at hword
    cases hword
  have hupper : (Text.uppercase (Text.quotedWord t)).toList =
      '"' :: (c :: cs).flatMap Text.uppercaseChar := by
    rw [Text.toList_uppercase, hword]
    rfl
  exact run_of_unknown List.takeWhile_append_dropWhile.symm hisWord (endsWord_dropWhile _)
    (fresh_get?_of_quote hword hc) (Number.parse?_of_quote hupper) depth path

theorem run_quote_of_space {cs : List Char} (ht : t.toList = ' ' :: cs) (hcs : '"' ∉ cs)
    (depth : Nat) (path : String) : ∃ n, run (.nested depth) path (Text.quote t) .fresh = .ok () n ∧
      n.data = [.text (String.ofList (cs.flatMap Text.quoteChar))] := by
  have hsource : (Text.quote t).toList = '"' :: ' ' :: (cs.flatMap Text.quoteChar ++ ['"']) := by
    rw [Text.toList_quote, ht]
    rfl
  exact run_of_literal hsource (Text.quote_not_mem_flatMap hcs)
    (fresh_stands .textLiteral _ List.mem_cons_self) rfl depth path

/-- A literal is read back. -/
theorem run_literal (ht : '"' ∉ t.toList) (depth : Nat) (path : String) :
    ∃ n, run (.nested depth) path (Text.literal t) .fresh = .ok () n ∧ n.data = [.text t] := by
  have hsource : (Text.literal t).toList = '"' :: ' ' :: (t.toList ++ ['"']) := by
    unfold Text.literal
    simp only [String.toList_append, List.append_assoc]
    rfl
  have hliteral := run_of_literal hsource ht (fresh_stands .textLiteral _ List.mem_cons_self) rfl
    depth path
  rwa [String.ofList_toList] at hliteral

/-! ## Main result -/

/-- A quoted text that does not begin with a space is a text whose first word is unknown. One that
begins with a space, and has no quotes, is read without the space and with the escapes. So no
quoted text is ever read back. A text without quotes is read back from a literal, which has a space
behind its first quote and no escapes; no source text leaves a text with a quote in it. -/
theorem quoted_text_not_read_back (t path : String) (depth : Nat) :
    (t.toList.head? ≠ some ' ' → run (.nested depth) path (Text.quote t) .fresh =
      .error (.failed ⟨some (.start path), .unknownWord (Text.uppercase (Text.quotedWord t)),
        some []⟩) { fresh with location := some (.start path) }) ∧
    (∀ cs, t.toList = ' ' :: cs → '"' ∉ cs →
      ∃ n, run (.nested depth) path (Text.quote t) .fresh = .ok () n ∧
        n.data = [.text (String.ofList (cs.flatMap Text.quoteChar))]) ∧
    .text t ∉ (left (run (.nested depth) path (Text.quote t) .fresh)).data ∧
    ('"' ∉ t.toList →
      ∃ n, run (.nested depth) path (Text.literal t) .fresh = .ok () n ∧ n.data = [.text t]) ∧
    ('"' ∈ t.toList →
      ∀ source, .text t ∉ (left (run (.nested depth) path source .fresh)).data) := by
  have hquotes : '"' ∈ t.toList →
      ∀ source, .text t ∉ (left (run (.nested depth) path source .fresh)).data := by
    intro hmem source hdata
    have hholds := quoteless_of_scripted (Scripted.fresh.run depth path source)
    exact hholds.data _ hdata t .text hmem
  refine ⟨fun ht => run_quote_of_ink ht depth path,
    fun cs ht hcs => run_quote_of_space ht hcs depth path, ?_,
    fun ht => run_literal ht depth path, hquotes⟩
  -- Behind the first escaped quote the rest of the text is run, and that could be any text. But none
  -- can leave a text with a quote.
  by_cases hmem : '"' ∈ t.toList
  · exact hquotes hmem _
  by_cases hspace : t.toList.head? = some ' '
  · obtain ⟨cs, hcs⟩ := List.head?_eq_some_iff.mp hspace
    obtain ⟨n, hrun, hdata⟩ := run_quote_of_space hcs
      (fun h => hmem (hcs ▸ List.mem_cons_of_mem _ h)) depth path
    rw [hrun]
    intro h
    have htext : t = String.ofList (cs.flatMap Text.quoteChar) :=
      Value.text.inj (List.mem_singleton.mp (hdata ▸ h))
    rw [htext, String.toList_ofList] at hcs
    exact Text.flatMap_quoteChar_ne cs hcs
  · rw [run_quote_of_ink hspace]
    exact List.not_mem_nil

/-- A text with a space in it, one with a space before it, and one with quotes. -/
theorem quoted_text_not_read_back_spaced : ∃ n k,
    run (.nested 0) "s" "\"a b\"" .fresh =
      .error (.failed ⟨some ⟨"s", 1, 1⟩, .unknownWord "\"A", some []⟩) n ∧
    run (.nested 0) "s" "\" a\\tb\"" .fresh = .ok () k ∧ k.data = [.text "a\\tb"] ∧
    (∃ k, run (.nested 0) "s" "\" a b\"" .fresh = .ok () k ∧ k.data = [.text "a b"]) ∧
    ∀ source, .text "a \"b\"" ∉ (left (run (.nested 0) "s" source .fresh)).data := by
  obtain ⟨hink, -, -, hliteral, -⟩ := quoted_text_not_read_back "a b" "s" 0
  obtain ⟨-, hspace, -⟩ := quoted_text_not_read_back " a\tb" "s" 0
  obtain ⟨-, -, -, -, hquotes⟩ := quoted_text_not_read_back "a \"b\"" "s" 0
  obtain ⟨k, hk, hdata⟩ := hspace ['a', '\t', 'b'] rfl (by decide)
  exact ⟨_, k, hink (by decide), hk, hdata, hliteral (by decide), hquotes (by decide)⟩

/-- What is made of this text is not read back. -/
theorem quoted_text_astray : ¬ ∀ t : String,
    ∃ n, run (.nested 0) "s" (Text.quote t) .fresh = .ok () n ∧ n.data = [.text t] := by
  intro h
  obtain ⟨n, hrun, -⟩ := h "a b"
  have hhalted : halted? (run (.nested 0) "s" (Text.quote "a b") .fresh) =
      some (.failed ⟨some ⟨"s", 1, 1⟩, .unknownWord "\"A", some []⟩) := by
    decide +kernel
  rw [hrun] at hhalted
  cases hhalted

end WordStack
