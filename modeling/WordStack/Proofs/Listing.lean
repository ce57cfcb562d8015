import Mathlib.Data.List.Induction
import WordStack.Proofs.ByteOrder
import WordStack.Proofs.LookUps

/-
  The listing of a dictionary, by the words that were inserted. A dictionary has the word last
  inserted under each name (`Dictionary.Keeps`), in the order of the names, so there is nothing in
  it that tells in which order they came (`Dictionary.Keeps.entriesBy_eq`). An entry of the listing
  has its name, its kind, its mark and its description in columns, and these stand at the same
  places in every entry: a name has no more characters than bytes, and the longest one in bytes
  makes the width.
  `listing_canonical`: what the listing is, when two listings are the same, and what `WORDS` writes.
-/
namespace WordStack

open Machine

/-- The dictionary into which these words were inserted one after another. -/
def Dictionary.ofWords (ws : List Word) : Dictionary := ws.foldl insert .empty

/-- The names of these words in upper case, each of them once. -/
def namesOf (ws : List Word) : List String := (ws.map fun w => Text.uppercase w.name).dedup

/-- What the listing shows of a word beside its name. -/
def Word.shown (w : Word) : String × Bool × String :=
  (w.definition.kind, w.isImmediate, w.description)

def blanks (n : Nat) : List Char := List.replicate n ' '

/-- What stands in so many columns of a line, the first of which is given. -/
def columns (line : String) (first count : Nat) : List Char := (line.toList.drop first).take count

/-- The first columns of the line have the key. What is shown of the word follows them, at places
that depend on how many they are and on nothing else. -/
structure IsEntry (width : Nat) (key : String) (w : Word) (line : String) : Prop where
  fits : key.length ≤ width
  key : columns line 0 width = key.toList ++ blanks (width - key.length)
  kind : columns line width 10 =
    blanks 2 ++ (w.definition.kind.toList ++ blanks (8 - w.definition.kind.length))
  mark : columns line (width + 10) 11 = if w.isImmediate then "  immediate".toList else blanks 11
  description : line.toList.drop (width + 21) =
    "  --  ".toList ++ (w.description.toList ++ ['\n'])

/-- The text counts the names of the words, and after that it has these entries: one for each name,
in the order of the bytes, which shows the last word of the name. The key columns are as wide as the
longest name is in bytes. -/
structure IsListing (ws : List Word) (text : String) (width : Nat)
    (entries : List (String × String)) : Prop where
  text : text = toString (namesOf ws).length ++ " words defined.\n\n" ++
    String.join (entries.map (·.2))
  names : (entries.map (·.1)).Perm (namesOf ws)
  increasing : (entries.map (·.1)).Pairwise fun a b => Text.bytes a < Text.bytes b
  entry : ∀ e ∈ entries, ∃ w, lastNamed ws e.1 = some w ∧ IsEntry width e.1 w e.2
  fits : ∀ e ∈ entries, (Text.bytes e.1).length ≤ width
  widest : entries ≠ [] → ∃ e ∈ entries, (Text.bytes e.1).length = width

namespace Dictionary

/-- The entries, with no more of their words than this. -/
def entriesBy {α : Type} (f : Word → α) (d : Dictionary) : List (String × α) :=
  d.entries.map fun e => (e.1, f e.2)

variable {ws vs : List Word} {d d' : Dictionary} {w : Word} {key : String}
  {width : Nat} {α : Type} {f : Word → α}

/-! ## Words in a dictionary -/

theorem keeps_ofWords (ws : List Word) : (ofWords ws).Keeps ws := by
  induction ws using List.reverseRecOn with
  | nil => exact Keeps.empty
  | append_singleton ws w ih =>
    have hinsert : ofWords (ws ++ [w]) = (ofWords ws).insert w := List.foldl_append
    rw [hinsert]
    exact ih.insert w

namespace Keeps

theorem uppercase_of_mem (h : d.Keeps ws) (hkey : key ∈ d.keys) : Text.uppercase key = key := by
  obtain ⟨w, -, rfl⟩ := (h.keys key).mp hkey
  exact Text.uppercase_uppercase w.name

/-- The entries are what is found under the names. -/
theorem mem_entries (h : d.Keeps ws) :
    (key, w) ∈ d.entries ↔ Text.uppercase key = key ∧ lastNamed ws key = some w := by
  rw [← h.get?]
  constructor
  · intro hmem
    have hupper := h.uppercase_of_mem (List.mem_map_of_mem hmem)
    have hsorted := h.sorted
    obtain ⟨before, after, hentries⟩ := List.append_of_mem hmem
    refine ⟨hupper, ?_⟩
    unfold Dictionary.get?
    unfold Dictionary.keys at hsorted
    rw [hentries, List.map_append, List.pairwise_append] at hsorted
    rw [hupper, List.lookup_eq_some_iff]
    refine ⟨before, after, hentries, fun e he => bne_iff_ne.mpr ?_⟩
    exact (Text.ne_of_lt (hsorted.2.2 e.1 (List.mem_map_of_mem he) key List.mem_cons_self)).symm
  · rintro ⟨hkey, hw⟩
    have hmem := mem_of_get? hw
    rwa [hkey] at hmem

theorem mem_entriesBy (h : d.Keeps ws) {a : α} : (key, a) ∈ d.entriesBy f ↔
    Text.uppercase key = key ∧ (lastNamed ws key).map f = some a := by
  unfold entriesBy
  rw [List.mem_map, Option.map_eq_some_iff]
  constructor
  · rintro ⟨⟨k, w⟩, he, heq⟩
    obtain ⟨rfl, rfl⟩ := Prod.mk.inj heq
    exact (h.mem_entries.mp he).imp_right fun hw => ⟨w, hw, rfl⟩
  · rintro ⟨hkey, w, hw, rfl⟩
    exact ⟨(key, w), h.mem_entries.mpr ⟨hkey, hw⟩, rfl⟩

theorem sorted_entriesBy (h : d.Keeps ws) (f : Word → α) :
    (d.entriesBy f).Pairwise fun a b => a.1 < b.1 :=
  List.pairwise_map.mpr (List.pairwise_map.mp h.sorted)

theorem nodup_entriesBy (h : d.Keeps ws) (f : Word → α) : (d.entriesBy f).Nodup :=
  (h.sorted_entriesBy f).imp fun hlt heq => Text.ne_of_lt hlt (congrArg Prod.fst heq)

/-- Where the last words are alike in some respect, so are the dictionaries. -/
theorem entriesBy_eq (h : d.Keeps ws) (h' : d'.Keeps vs)
    (hlast : ∀ name, (lastNamed ws name).map f = (lastNamed vs name).map f) :
    d.entriesBy f = d'.entriesBy f := by
  -- Both are in the order of their names, so they need only have the same members.
  have hperm : (d.entriesBy f).Perm (d'.entriesBy f) := by
    refine (List.perm_ext_iff_of_nodup (h.nodup_entriesBy f) (h'.nodup_entriesBy f)).mpr ?_
    rintro ⟨key, a⟩
    rw [h.mem_entriesBy, h'.mem_entriesBy, hlast]
  refine hperm.eq_of_pairwise (fun a b _ _ hab hba => ?_) (h.sorted_entriesBy f)
    (h'.sorted_entriesBy f)
  exact absurd (String.lt_trans hab hba) (String.lt_irrefl _)

theorem eq_ofWords (h : d.Keeps ws) : d = ofWords ws := by
  have hentries := h.entriesBy_eq (f := id) (keeps_ofWords ws) fun _ => rfl
  have hid : ∀ c : Dictionary, c.entriesBy id = c.entries := fun c => List.map_id _
  rw [hid, hid] at hentries
  exact congrArg Dictionary.mk hentries

end Keeps

/-! ## Columns -/

theorem columns_eq {line : String} {before between after : List Char} {first count : Nat}
    (hline : line.toList = before ++ (between ++ after)) (hfirst : before.length = first)
    (hcount : between.length = count) : columns line first count = between := by
  subst hfirst hcount
  unfold columns
  rw [hline, List.drop_left, List.take_left]

theorem toList_pad (width : Nat) (s : String) :
    (pad width s).toList = s.toList ++ blanks (width - s.length) := by
  unfold pad blanks
  rw [String.toList_append, String.toList_ofList]

theorem length_pad {s : String} (h : s.length ≤ width) : (pad width s).toList.length = width := by
  rw [toList_pad, List.length_append, blanks, List.length_replicate, String.length_toList]
  omega

theorem length_kind (d : Definition) : d.kind.length ≤ 8 := by
  have hkinds : ∀ s ∈ ["native", "variable", "constant", "compiled"], s.length ≤ 8 := by decide
  refine hkinds _ ?_
  cases d <;> simp [Definition.kind]

theorem isEntry_entryLine (h : key.length ≤ width) (w : Word) :
    IsEntry width key w (entryLine width key w) := by
  have hkey := length_pad h
  have hkind : (blanks 2 ++ (pad 8 w.definition.kind).toList).length = 10 := by
    rw [List.length_append, length_pad (length_kind w.definition)]
    rfl
  have hmark : (if w.isImmediate then "  immediate".toList else blanks 11).length = 11 := by
    cases w.isImmediate <;> rfl
  have hline : (entryLine width key w).toList =
      (pad width key).toList ++ ((blanks 2 ++ (pad 8 w.definition.kind).toList) ++
        ((if w.isImmediate then "  immediate".toList else blanks 11) ++
          ("  --  ".toList ++ (w.description.toList ++ ['\n'])))) := by
    have hif : (if w.isImmediate then "  immediate" else "           ").toList =
        if w.isImmediate then "  immediate".toList else blanks 11 := by
      cases w.isImmediate <;> rfl
    have hblanks : "  ".toList = blanks 2 := rfl
    have hnewline : "\n".toList = ['\n'] := rfl
    unfold entryLine
    simp only [String.toList_append, hif, hblanks, hnewline, List.append_assoc]
  -- The columns before the one in question are brought together from the left.
  refine ⟨h, ?_, ?_, ?_, ?_⟩
  · rw [← toList_pad]
    have hstart : (entryLine width key w).toList = [] ++ ((pad width key).toList ++ _) := hline
    exact columns_eq hstart rfl hkey
  · rw [← toList_pad]
    exact columns_eq hline hkey hkind
  · rw [← List.append_assoc] at hline
    refine columns_eq hline ?_ hmark
    rw [List.length_append, hkey, hkind]
  · rw [← List.append_assoc, ← List.append_assoc] at hline
    rw [hline]
    refine List.drop_left' ?_
    rw [List.length_append, List.length_append, hkey, hkind, hmark]

/-! ## Listings -/

theorem nameWidth_eq (d : Dictionary) :
    d.nameWidth = ((d.keys.map String.utf8ByteSize).max?).getD 0 := by
  unfold nameWidth
  rw [List.foldl_max, Nat.zero_max]

/-- The width is that of the longest name. -/
theorem nameWidth_spec (d : Dictionary) : (∀ key ∈ d.keys, key.utf8ByteSize ≤ d.nameWidth) ∧
    (d.keys ≠ [] → ∃ key ∈ d.keys, key.utf8ByteSize = d.nameWidth) := by
  rw [nameWidth_eq]
  cases hmax : (d.keys.map String.utf8ByteSize).max? with
  | none =>
    have hnil := List.map_eq_nil_iff.mp (List.max?_eq_none_iff.mp hmax)
    rw [hnil]
    exact ⟨nofun, fun hne => absurd rfl hne⟩
  | some k =>
    obtain ⟨hmem, hle⟩ := List.max?_eq_some_iff.mp hmax
    exact ⟨fun key hkey => hle _ (List.mem_map_of_mem hkey), fun _ => List.mem_map.mp hmem⟩

/-- The lines of the entries, each after its name. -/
def lines (d : Dictionary) : List (String × String) :=
  d.entries.map fun e => (e.1, entryLine d.nameWidth e.1 e.2)

theorem Keeps.isListing (h : d.Keeps ws) : IsListing ws d.listing d.nameWidth d.lines := by
  have hkeys : d.lines.map (·.1) = d.keys := List.map_map
  obtain ⟨hfits, hwidest⟩ := d.nameWidth_spec
  have hfits : ∀ key ∈ d.keys, (Text.bytes key).length ≤ d.nameWidth := fun key hkey => by
    rw [Text.length_bytes]
    exact hfits key hkey
  refine ⟨?_, ?_, ?_, fun e he => ?_, fun e he => hfits _ (hkeys ▸ List.mem_map_of_mem he),
    fun hne => ?_⟩
  · have hsize : d.size = (namesOf ws).length :=
      (List.length_map _).symm.trans h.perm_keys.length_eq
    unfold listing lines
    rw [hsize, List.map_map]
    rfl
  · exact hkeys ▸ h.perm_keys
  · rw [hkeys]
    exact h.sorted.imp Text.bytes_lt_bytes
  · obtain ⟨⟨key, w⟩, hmem, rfl⟩ := List.mem_map.mp he
    have hkey := Text.length_le_length_bytes key
    exact ⟨w, (h.mem_entries.mp hmem).2,
      isEntry_entryLine (hkey.trans (hfits key (List.mem_map_of_mem hmem))) w⟩
  · have hnil : d.keys ≠ [] := fun hnil => hne (List.map_eq_nil_iff.mp (hkeys.trans hnil))
    obtain ⟨key, hkey, hwidth⟩ := hwidest hnil
    obtain ⟨e, he, rfl⟩ := List.mem_map.mp (hkeys ▸ hkey)
    exact ⟨e, he, (Text.length_bytes _).trans hwidth⟩

/-- A line tells of a word what is shown of it and no more. -/
def shownLine (width : Nat) (e : String × String × Bool × String) : String :=
  pad width e.1 ++ "  " ++ pad 8 e.2.1 ++ (if e.2.2.1 then "  immediate" else "           ") ++
    "  --  " ++ e.2.2.2 ++ "\n"

theorem listing_congr (h : d.entriesBy Word.shown = d'.entriesBy Word.shown) :
    d.listing = d'.listing := by
  have hkeys : ∀ c : Dictionary, c.keys = (c.entriesBy Word.shown).map (·.1) := fun c => by
    unfold entriesBy
    rw [List.map_map]
    rfl
  have hsize : ∀ c : Dictionary, c.size = (c.entriesBy Word.shown).length :=
    fun c => (List.length_map _).symm
  have hlines : ∀ c : Dictionary, (c.entries.map fun e => entryLine c.nameWidth e.1 e.2) =
      (c.entriesBy Word.shown).map (shownLine c.nameWidth) := fun c => by
    unfold entriesBy
    rw [List.map_map]
    rfl
  have hwidth : d.nameWidth = d'.nameWidth := by
    unfold nameWidth
    rw [hkeys, hkeys, h]
  have hall : ∀ c : Dictionary, c.listing = toString c.size ++ " words defined.\n\n" ++
    String.join (c.entries.map fun e => entryLine c.nameWidth e.1 e.2) := fun _ => rfl
  rw [hall, hall, hlines, hlines, hsize, hsize, h, hwidth]

end Dictionary

/-! ## Main result -/

/-- After any words were inserted into a dictionary, its listing counts the names of the words and
has one entry for each, in the order of their bytes and in columns, which shows the last word of the
name. The last words of the names, in so far as they are shown, make the listing, whatever words
there were before and in which order the names came. `WORDS` writes the listing of the words that
were added to the machine. -/
theorem listing_canonical :
    (∀ ws, ∃ width entries, IsListing ws (Dictionary.ofWords ws).listing width entries) ∧
    (∀ ws vs, (∀ name, (lastNamed ws name).map Word.shown = (lastNamed vs name).map Word.shown) →
      (Dictionary.ofWords ws).listing = (Dictionary.ofWords vs).listing) ∧
    ∀ ms n, Course .fresh ms n → n.outputFails = false →
      BuiltIn.printWords.run n = .ok ()
        { n with output := n.output ++ (Dictionary.ofWords (history ms)).listing } := by
  refine ⟨fun ws => ⟨_, _, (Dictionary.keeps_ofWords ws).isListing⟩,
    fun ws vs hlast => ?_, fun ms n hcourse hwrites => ?_⟩
  · exact Dictionary.listing_congr
      ((Dictionary.keeps_ofWords ws).entriesBy_eq (Dictionary.keeps_ofWords vs) hlast)
  · have hdictionary := (catalogued_history hcourse).keeps.eq_ofWords
    have hrun : BuiltIn.printWords.run n = write n.dictionary.listing n :=
      BuiltIn.run_of_writing rfl
    have hfails : ¬ (n.outputFails = true ∧ n.dictionary.listing ≠ "") := by simp [hwrites]
    rw [hrun, write_apply, if_neg hfails, hdictionary]

/-- A name that has one character and two bytes. It is inserted first and, in the other case, last,
or else just once. In a session it is added to the built-in words. -/
theorem listing_canonical_reordered : ∃ (ws vs : List Word) (script : List Step),
    ws.map (·.name) = ["é", "b", "É"] ∧ vs.map (·.name) = ["É", "b"] ∧
    (Dictionary.ofWords ws).listing = "2 words defined.\n\n" ++
      "B   native    immediate  --  The first.\n" ++ "É   constant             --  The last.\n" ∧
    (Dictionary.ofWords ws).listing = (Dictionary.ofWords vs).listing ∧
    (∃ width entries, IsListing ws (Dictionary.ofWords ws).listing width entries) ∧
    (history (Session.course .fresh script)).length = 33 ∧
    BuiltIn.printWords.run (Session.after .fresh script) = .ok () { Session.after .fresh script with
      output := (Session.after .fresh script).output ++
        (Dictionary.ofWords (history (Session.course .fresh script))).listing } := by
  obtain ⟨hlisting, hsame, hwritten⟩ := listing_canonical
  refine ⟨[⟨0, "é", false, none, "", "", .variable 0⟩,
      ⟨1, "b", true, none, "The first.", "", .host []⟩,
      ⟨2, "É", false, none, "The last.", "", .constant (.cell 0)⟩],
    [⟨0, "É", false, none, "The last.", "", .constant (.cell 1)⟩,
      ⟨1, "b", true, none, "The first.", "", .host []⟩], [.perform (.run "s" "VAR é")],
    rfl, rfl, ?_, hsame _ _ fun name => ?_, hlisting _, ?_,
    hwritten _ _ (Session.course_after .fresh _) ?_⟩
  · decide +kernel
  · have hupper : Text.uppercase "é" = Text.uppercase "É" := by decide +kernel
    have hne : Text.uppercase "b" ≠ Text.uppercase "É" := by decide +kernel
    by_cases hlast : Text.uppercase "É" = Text.uppercase name
    · simp [lastNamed, ← hlast, hne, Word.shown, Definition.kind]
    · by_cases hfirst : Text.uppercase "b" = Text.uppercase name
      · simp [lastNamed, hlast, hfirst]
      · simp [lastNamed, hlast, hfirst, hupper]
  · decide +kernel
  · decide +kernel

end WordStack
