import WordStack.Proofs.PrintedNumbers

/-
  A stack can be read off its dump. Each value begins with a character that tells its kind, and a
  blank or a newline comes right after it. A number or the index of a cell goes on as long as it
  can; a text ends with the first quote that has no backslash in front of it, and between the
  quotes each character can be told from what comes after it (`Text.quoteChar_append_inj`). So a
  value can be taken off the front of the dump (`Value.dump_append_inj`), and with it the stack,
  one value after another.
  `stack_dump_unambiguous`: two stacks of numbers, texts and cells are dumped in the same line only
  if they are the same, and the line ends with its only newline.
-/
namespace WordStack

open Machine BuiltIn

/-- A number, a text or a reference to a cell. -/
def Value.IsPlain : Value → Prop
  | .number _ | .text _ | .cell _ => True
  | .word _ => False

/-- Two texts that begin with as many characters of one kind as they can. -/
theorem eq_of_spans {p : Char → Bool} {as bs xs ys : List Char} (has : ∀ c ∈ as, p c)
    (hbs : ∀ c ∈ bs, p c) (hxs : ∀ c ∈ xs.head?, p c = false)
    (hys : ∀ c ∈ ys.head?, p c = false) (h : as ++ xs = bs ++ ys) : as = bs ∧ xs = ys := by
  have hends : ∀ zs : List Char, (∀ c ∈ zs.head?, p c = false) → zs.takeWhile p = [] := by
    intro zs hzs
    cases zs with
    | nil => rfl
    | cons c zs => exact List.takeWhile_cons_of_neg (by simp [hzs c rfl])
  have hsame := congrArg (List.takeWhile p) h
  rw [List.takeWhile_append_of_pos has, List.takeWhile_append_of_pos hbs, hends xs hxs,
    hends ys hys, List.append_nil, List.append_nil] at hsame
  rw [hsame] at h
  exact ⟨hsame, List.append_cancel_left h⟩

namespace Text

variable {c d : Char} {xs ys : List Char}

/-- The character that a letter after a backslash stands for. -/
def unescape : Char → Char
  | 'n' => '\n'
  | 'r' => '\r'
  | 't' => '\t'
  | c => c

/-- A character stands for itself or is told by the one after the backslash. -/
theorem quoteChar_cases (c : Char) :
    (quoteChar c = [c] ∧ c ≠ '"' ∧ c ≠ '\\' ∧ c ≠ '\n') ∨
      ∃ e, quoteChar c = ['\\', e] ∧ unescape e = c ∧ e ≠ '\n' := by
  unfold quoteChar
  split
  · exact .inr ⟨'"', rfl, rfl, by decide⟩
  · exact .inr ⟨'\\', rfl, rfl, by decide⟩
  · exact .inr ⟨'n', rfl, rfl, by decide⟩
  · exact .inr ⟨'r', rfl, rfl, by decide⟩
  · exact .inr ⟨'t', rfl, rfl, by decide⟩
  · next hquote hbackslash hnewline _ _ => exact .inl ⟨rfl, hquote, hbackslash, hnewline⟩

/-- The first of some quoted characters can be told from the rest. -/
theorem quoteChar_append_inj (h : quoteChar c ++ xs = quoteChar d ++ ys) : c = d ∧ xs = ys := by
  rcases quoteChar_cases c with ⟨hc, -, hplain, -⟩ | ⟨e, hc, he, -⟩ <;>
    rcases quoteChar_cases d with ⟨hd, -, hplain', -⟩ | ⟨e', hd, he', -⟩ <;>
    rw [hc, hd] at h
  · exact List.cons.inj h
  · exact absurd (List.cons.inj h).1 hplain
  · exact absurd (List.cons.inj h).1.symm hplain'
  · obtain ⟨hletter, hrest⟩ := List.cons.inj (List.cons.inj h).2
    exact ⟨by rw [← he, ← he', hletter], hrest⟩

theorem quoteChar_append_ne : quoteChar c ++ xs ≠ '"' :: ys := by
  intro h
  rcases quoteChar_cases c with ⟨hc, hplain, -⟩ | ⟨e, hc, -⟩ <;> rw [hc] at h
  · exact hplain (List.cons.inj h).1
  · exact absurd (List.cons.inj h).1 (by decide)

/-- Quoted characters end with the first quote that is not itself quoted. -/
theorem quoted_append_inj {cs ds : List Char}
    (h : cs.flatMap quoteChar ++ '"' :: xs = ds.flatMap quoteChar ++ '"' :: ys) :
    cs = ds ∧ xs = ys := by
  induction cs generalizing ds with
  | nil =>
    cases ds with
    | nil => exact ⟨rfl, (List.cons.inj h).2⟩
    | cons d ds =>
      rw [List.flatMap_cons, List.append_assoc] at h
      exact absurd h.symm quoteChar_append_ne
  | cons c cs ih =>
    rw [List.flatMap_cons, List.append_assoc] at h
    cases ds with
    | nil => exact absurd h quoteChar_append_ne
    | cons d ds =>
      rw [List.flatMap_cons, List.append_assoc] at h
      obtain ⟨hhead, hrest⟩ := quoteChar_append_inj h
      obtain ⟨htail, hend⟩ := ih hrest
      exact ⟨by rw [hhead, htail], hend⟩

theorem toList_quote (s : String) :
    (quote s).toList = '"' :: (s.toList.flatMap quoteChar ++ ['"']) := by
  unfold quote
  simp only [String.toList_append, String.toList_ofList, List.append_assoc]
  rfl

theorem quote_append_inj {s t : String} (h : (quote s).toList ++ xs = (quote t).toList ++ ys) :
    s = t ∧ xs = ys := by
  rw [toList_quote, toList_quote, List.cons_append, List.cons_append, List.append_assoc,
    List.append_assoc] at h
  obtain ⟨htext, hrest⟩ := quoted_append_inj (List.cons.inj h).2
  exact ⟨String.toList_inj.mp htext, hrest⟩

theorem newline_not_mem_quote (s : String) : '\n' ∉ (quote s).toList := by
  rw [toList_quote]
  intro h
  rcases List.mem_cons.mp h with h | h
  · exact absurd h (by decide)
  rcases List.mem_append.mp h with h | h
  · obtain ⟨c, -, hc⟩ := List.mem_flatMap.mp h
    rcases quoteChar_cases c with ⟨heq, -, -, hne⟩ | ⟨e, heq, -, hne⟩ <;> rw [heq] at hc
    · exact hne (List.mem_singleton.mp hc).symm
    · rcases List.mem_cons.mp hc with hc | hc
      · exact absurd hc (by decide)
      · exact hne (List.mem_singleton.mp hc).symm
  · exact absurd h (by decide)

end Text

/-! ## Cells -/

theorem toList_renderCell (i : Nat) :
    (renderCell i).toList = "<cell ".toList ++ (Nat.toDigits 10 i ++ ['>']) := by
  unfold renderCell
  simp only [String.toList_append, Nat.toString_eq_ofList_toDigits, String.toList_ofList,
    List.append_assoc]
  rfl

/-- A number of digits is told from what comes after it by a character that is no digit. -/
theorem toDigits_append_inj {i j : Nat} {xs ys : List Char}
    (h : Nat.toDigits 10 i ++ '>' :: xs = Nat.toDigits 10 j ++ '>' :: ys) : i = j ∧ xs = ys := by
  have hends : ∀ zs : List Char, ∀ c ∈ ('>' :: zs).head?, c.isDigit = false := by
    intro zs c hc
    rw [← Option.some.inj hc]
    rfl
  obtain ⟨hdigits, hrest⟩ := eq_of_spans (Number.digits_toDigits i) (Number.digits_toDigits j)
    (hends xs) (hends ys) h
  refine ⟨?_, (List.cons.inj hrest).2⟩
  rw [← Number.ofDigits_toDigits i, hdigits, Number.ofDigits_toDigits]

theorem renderCell_append_inj {i j : Nat} {xs ys : List Char}
    (h : (renderCell i).toList ++ xs = (renderCell j).toList ++ ys) : i = j ∧ xs = ys := by
  rw [toList_renderCell, toList_renderCell, List.append_assoc, List.append_assoc,
    List.append_assoc, List.append_assoc] at h
  exact toDigits_append_inj (List.append_cancel_left h)

theorem newline_not_mem_renderCell (i : Nat) : '\n' ∉ (renderCell i).toList := by
  have hopen : '\n' ∉ "<cell ".toList := by decide
  have hclose : '\n' ∉ ['>'] := by decide
  rw [toList_renderCell]
  intro h
  rcases List.mem_append.mp h with h | h
  · exact hopen h
  rcases List.mem_append.mp h with h | h
  · cases Number.digits_toDigits i _ h
  · exact hclose h

/-! ## Numbers -/

theorem Number.render_append_inj {x y : Float} {xs ys : List Char} (hxs : EndsWord xs)
    (hys : EndsWord ys) (h : (render x).toList ++ xs = (render y).toList ++ ys) :
    x = y ∧ xs = ys := by
  have hends : ∀ zs, EndsWord zs → ∀ c ∈ zs.head?, isInk c = false := by
    intro zs hzs c hc
    unfold isInk
    rw [hzs c hc]
    rfl
  obtain ⟨hrender, hrest⟩ := eq_of_spans (isWord_render x).ink (isWord_render y).ink
    (hends xs hxs) (hends ys hys) h
  exact ⟨render_injective (String.toList_inj.mp hrender), hrest⟩

theorem Number.newline_not_mem_render (x : Float) : '\n' ∉ (render x).toList := fun h => by
  cases (isWord_render x).ink _ h

/-! ## Values -/

namespace Value

variable {v w : Value} {vs ws : List Value} {xs ys : List Char}

/-- The type of the value whose dump begins with this character. -/
def dumpedType (c : Char) : String :=
  if c = '"' then "text" else if c = '<' then "variable" else "number"

theorem typeName_of_dump (hv : v.IsPlain) :
    ∃ c cs, v.dump.toList = c :: cs ∧ dumpedType c = v.typeName := by
  cases v with
  | number x =>
    obtain ⟨c, cs, hcs⟩ := List.exists_cons_of_ne_nil (Number.isWord_render x).ne_nil
    have hc : Number.InNumbers c := Number.mem_render x c (hcs ▸ List.mem_cons_self)
    have hquote : c ≠ '"' := Number.ne_of_inNumbers hc (by decide)
    have hangle : c ≠ '<' := Number.ne_of_inNumbers hc (by decide)
    refine ⟨c, cs, hcs, ?_⟩
    unfold dumpedType
    rw [if_neg hquote, if_neg hangle]
    rfl
  | text s => exact ⟨_, _, Text.toList_quote s, rfl⟩
  | cell i => exact ⟨_, _, toList_renderCell i, rfl⟩
  | word w => exact absurd hv id

/-- Two dumps that begin alike begin with values of one type. -/
theorem typeName_eq (hv : v.IsPlain) (hw : w.IsPlain)
    (h : v.dump.toList ++ xs = w.dump.toList ++ ys) : v.typeName = w.typeName := by
  obtain ⟨c, cs, hcs, hc⟩ := typeName_of_dump hv
  obtain ⟨d, ds, hds, hd⟩ := typeName_of_dump hw
  rw [hcs, hds] at h
  rw [← hc, ← hd, (List.cons.inj h).1]

/-- A value can be taken off the front of a dump. -/
theorem dump_append_inj (hv : v.IsPlain) (hw : w.IsPlain) (hxs : EndsWord xs) (hys : EndsWord ys)
    (h : v.dump.toList ++ xs = w.dump.toList ++ ys) : v = w ∧ xs = ys := by
  have htype := typeName_eq hv hw h
  cases v with
  | number x =>
    cases w with
    | number y => exact (Number.render_append_inj hxs hys h).imp_left (congrArg Value.number)
    | _ => simp [typeName] at htype
  | text s =>
    cases w with
    | text t => exact (Text.quote_append_inj h).imp_left (congrArg Value.text)
    | _ => simp [typeName] at htype
  | cell i =>
    cases w with
    | cell j => exact (renderCell_append_inj h).imp_left (congrArg Value.cell)
    | _ => simp [typeName] at htype
  | word w => exact absurd hv id

theorem newline_not_mem_dump (hv : v.IsPlain) : '\n' ∉ v.dump.toList := by
  cases v with
  | number x => exact Number.newline_not_mem_render x
  | text s => exact Text.newline_not_mem_quote s
  | cell i => exact newline_not_mem_renderCell i
  | word w => exact absurd hv id

end Value

/-! ## Stacks -/

/-- The values of a stack as they stand in its dump, each after a blank. -/
def dumps (vs : List Value) : List Char := vs.flatMap fun v => ' ' :: v.dump.toList

variable {vs ws : List Value}

theorem endsWord_dumps (vs : List Value) : EndsWord (dumps vs ++ ['\n']) := by
  intro c hc
  cases vs with
  | nil => exact Option.some.inj hc ▸ rfl
  | cons v vs => exact Option.some.inj hc ▸ rfl

theorem dumps_inj (hvs : ∀ v ∈ vs, v.IsPlain) (hws : ∀ w ∈ ws, w.IsPlain)
    (h : dumps vs ++ ['\n'] = dumps ws ++ ['\n']) : vs = ws := by
  induction vs generalizing ws with
  | nil =>
    cases ws with
    | nil => rfl
    | cons w ws => exact absurd (List.cons.inj h).1 (by decide)
  | cons v vs ih =>
    cases ws with
    | nil => exact absurd (List.cons.inj h).1 (by decide)
    | cons w ws =>
      unfold dumps at h
      rw [List.flatMap_cons, List.flatMap_cons, List.append_assoc, List.append_assoc] at h
      obtain ⟨rfl, hrest⟩ := Value.dump_append_inj (hvs v List.mem_cons_self)
        (hws w List.mem_cons_self) (endsWord_dumps vs) (endsWord_dumps ws) (List.cons.inj h).2
      rw [ih (fun u hu => hvs u (List.mem_cons_of_mem _ hu))
        (fun u hu => hws u (List.mem_cons_of_mem _ hu)) hrest]

theorem newline_not_mem_dumps (hvs : ∀ v ∈ vs, v.IsPlain) : '\n' ∉ dumps vs := by
  intro h
  obtain ⟨v, hv, hmem⟩ := List.mem_flatMap.mp h
  rcases List.mem_cons.mp hmem with hmem | hmem
  · exact absurd hmem (by decide)
  · exact Value.newline_not_mem_dump (hvs v hv) hmem

theorem toList_stackLine (m : Machine) :
    (stackLine m).toList = '<' :: (Nat.toDigits 10 m.active.length ++
      '>' :: (dumps m.active.reverse ++ ['\n'])) := by
  have hopen : "<".toList = ['<'] := rfl
  have hclose : ">".toList = ['>'] := rfl
  have hnewline : "\n".toList = ['\n'] := rfl
  have hjoin : (String.join (m.active.reverse.map fun v => " " ++ v.dump)).toList =
      dumps m.active.reverse := by
    rw [String.toList_join, List.flatMap_map]
    refine List.flatMap_congr fun v _ => ?_
    rw [String.toList_append]
    rfl
  unfold stackLine
  simp only [String.toList_append, Nat.toString_eq_ofList_toDigits, String.toList_ofList, hopen,
    hclose, hnewline, hjoin, List.append_assoc, List.cons_append, List.nil_append]

/-- `PSTACK` writes the dump of the stack. For stacks of numbers, texts and cells, it tells every
entry, and it is one line whatever the texts hold. -/
theorem stack_dump_unambiguous :
    (∀ m : Machine, m.outputFails = false →
      BuiltIn.printStack.run m = .ok () { m with output := m.output ++ stackLine m }) ∧
    (∀ m n : Machine, (∀ v ∈ m.active, v.IsPlain) → (∀ v ∈ n.active, v.IsPlain) →
      stackLine m = stackLine n → m.active = n.active) ∧
    ∀ m : Machine, (∀ v ∈ m.active, v.IsPlain) →
      ∃ body, (stackLine m).toList = body ++ ['\n'] ∧ '\n' ∉ body := by
  refine ⟨fun m hwrites => ?_, fun m n hm hn h => ?_, fun m hm => ?_⟩
  · have hfails : ¬ (m.outputFails = true ∧ stackLine m ≠ "") := by simp [hwrites]
    have hrun : BuiltIn.printStack.run m = write (stackLine m) m := run_of_writing rfl
    rw [hrun, write_apply, if_neg hfails]
  · have hlines := congrArg String.toList h
    rw [toList_stackLine, toList_stackLine] at hlines
    obtain ⟨-, hdumps⟩ := toDigits_append_inj (List.cons.inj hlines).2
    have hreverse := dumps_inj (fun v hv => hm v (List.mem_reverse.mp hv))
      (fun w hw => hn w (List.mem_reverse.mp hw)) hdumps
    exact List.reverse_injective hreverse
  · refine ⟨'<' :: (Nat.toDigits 10 m.active.length ++ '>' :: dumps m.active.reverse), ?_, ?_⟩
    · rw [toList_stackLine]
      simp only [List.append_assoc, List.cons_append]
    · have hdigits : '\n' ∉ Nat.toDigits 10 m.active.length := fun h => by
        cases Number.digits_toDigits _ _ h
      have hdumps : '\n' ∉ dumps m.active.reverse :=
        newline_not_mem_dumps fun v hv => hm v (List.mem_reverse.mp hv)
      simp [hdigits, hdumps]

/-- A text that looks like the rest of the stack, below a cell and a negative zero, dumped while
interpreting and while compiling. -/
theorem stack_dump_unambiguous_escaped : ∃ vs : List Value,
    stackLine { blank with data := vs } =
      "<3> \"<cell 0> -0\\n\\\"\" <cell 0> -0\n" ∧
    stackLine { blank with mode := .compiling, buffer := vs } = stackLine { blank with data := vs } ∧
    Machine.active { blank with mode := .compiling, buffer := vs } =
      Machine.active { blank with data := vs } ∧
    ∃ body, (stackLine { blank with data := vs }).toList = body ++ ['\n'] ∧ '\n' ∉ body := by
  obtain ⟨-, hsame, hline⟩ := stack_dump_unambiguous
  have hplain : ∀ v ∈ [.number (Number.ofPattern true 0), .cell 0, .text "<cell 0> -0\n\""],
      Value.IsPlain v := by
    simp [Value.IsPlain]
  refine ⟨[.number (Number.ofPattern true 0), .cell 0, .text "<cell 0> -0\n\""], ?_, rfl,
    hsame _ _ hplain hplain rfl, hline _ hplain⟩
  decide +kernel

end WordStack
