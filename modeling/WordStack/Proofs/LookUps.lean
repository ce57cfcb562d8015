import Mathlib.Data.List.Dedup
import WordStack.Proofs.ByteOrder
import WordStack.Proofs.Course
import WordStack.Proofs.NumberGrammar
import WordStack.Proofs.Outcomes
import WordStack.Proofs.Uppercase

/-
  Looking up a name, in the dictionary itself, as a word of a text and to execute the word. An
  operation adds one word to the dictionary at most, which then has the latest serial number, so
  the words ever added can be told from the machines that came up (`wordsAdded`).
  `Dictionary.Keeps`: a look-up finds the word last inserted under the name, and the dictionary has
  one entry for each name. `Catalogued`: so it is with the words that were added to a machine.
  `Catalogued.extend` adds a word; as every operation of a host or of a running text does no more
  than that (`extends_operation`), it holds along every course.
-/
namespace WordStack

open Machine

/-! ## The words that are added -/

/-- The word that is in the dictionary under the serial number that was next before. -/
def addedWord? (m k : Machine) : Option Word :=
  if k.nextSerial = m.nextSerial then none
  else (k.dictionary.entries.find? fun e => e.2.serial = m.nextSerial).map (·.2)

/-- The words added along these machines, from the first one on. -/
def wordsAdded (m : Machine) : List Machine → List Word
  | [] => []
  | k :: ms => (addedWord? m k).toList ++ wordsAdded k ms

/-- The machines that come up while built-in words are added. -/
def installed (m : Machine) : List (String × BuiltIn) → List Machine
  | [] => []
  | (name, b) :: rest => m.install name b :: installed (m.install name b) rest

/-- The words ever added to a machine that began with none, when these machines came up since it
had all the built-in words. -/
def history (ms : List Machine) : List Word :=
  wordsAdded .blank (installed .blank BuiltIn.named ++ ms)

/-- The word last added whose name is this one in upper case. -/
def lastNamed (ws : List Word) (name : String) : Option Word :=
  ws.reverse.find? fun w => Text.uppercase w.name = Text.uppercase name

/-- The dictionary has the last word of each name, under the name in upper case. -/
structure Dictionary.Keeps (ws : List Word) (d : Dictionary) : Prop where
  get? : ∀ name, d.get? name = lastNamed ws name
  keys : ∀ key, key ∈ d.keys ↔ ∃ w ∈ ws, Text.uppercase w.name = key
  sorted : d.keys.Pairwise (· < ·)

/-- What the dictionary of a machine is by the words that were added to it. -/
structure Catalogued (ws : List Word) (m : Machine) : Prop where
  get? : ∀ name, m.dictionary.get? name = lastNamed ws name
  keys : ∀ key, key ∈ m.dictionary.keys ↔ ∃ w ∈ ws, Text.uppercase w.name = key
  names : ∀ e ∈ m.dictionary.entries, e.1 = e.2.name ∧ Text.uppercase e.1 = e.1
  sorted : m.dictionary.keys.Pairwise (· < ·)
  serials : ∀ e ∈ m.dictionary.entries, e.2.serial < m.nextSerial
  count : ws.length = m.nextSerial

/-- What an operation does to the dictionary. -/
inductive Extends (m k : Machine) : Prop
  | kept (hdictionary : k.dictionary = m.dictionary) (hserial : k.nextSerial = m.nextSerial)
  | added {w : Word} (hw : w.serial = m.nextSerial) (hname : Text.uppercase w.name = w.name)
    (hdictionary : k.dictionary = m.dictionary.insert w) (hserial : k.nextSerial = m.nextSerial + 1)

variable {m n k : Machine} {ms : List Machine} {ws : List Word} {w : Word} {key name : String}
  {d : Dictionary}

/-! ## Keys in order -/

namespace Dictionary

variable {entries : List (String × Word)}

theorem mem_keys_insertEntry {other : String} :
    other ∈ (insertEntry key w entries).map (·.1) ↔ other = key ∨ other ∈ entries.map (·.1) := by
  induction entries with
  | nil => simp [insertEntry]
  | cons e rest ih =>
    obtain ⟨k, v⟩ := e
    unfold insertEntry
    split
    · next hk =>
      subst hk
      simp
    · split
      · simp
      · simp only [List.map_cons, List.mem_cons, ih]
        tauto

theorem sorted_insertEntry (h : (entries.map (·.1)).Pairwise (· < ·)) :
    ((insertEntry key w entries).map (·.1)).Pairwise (· < ·) := by
  induction entries with
  | nil => exact List.pairwise_singleton _ _
  | cons e rest ih =>
    obtain ⟨k, v⟩ := e
    obtain ⟨hlt, hrest⟩ := List.pairwise_cons.mp h
    unfold insertEntry
    split
    · next hk =>
      subst hk
      exact h
    · next hne =>
      split
      · next hkey =>
        refine List.pairwise_cons.mpr ⟨fun other hother => ?_, h⟩
        rcases List.mem_cons.mp hother with rfl | hother
        · exact hkey
        · exact String.lt_trans hkey (hlt other hother)
      · next hkey =>
        refine List.pairwise_cons.mpr ⟨fun other hother => ?_, ih hrest⟩
        rcases mem_keys_insertEntry.mp hother with rfl | hother
        · grind
        · exact hlt other hother

theorem mem_insertEntry_self (key : String) (w : Word) (entries : List (String × Word)) :
    (key, w) ∈ insertEntry key w entries := by
  obtain ⟨before, after, heq, -⟩ :=
    List.lookup_eq_some_iff.mp (lookup_insertEntry_self key w entries)
  rw [heq]
  exact List.mem_append_right _ List.mem_cons_self

end Dictionary

/-! ## Adding a word -/

theorem lastNamed_append (ws : List Word) (w : Word) (name : String) :
    lastNamed (ws ++ [w]) name =
      if Text.uppercase w.name = Text.uppercase name then some w else lastNamed ws name := by
  unfold lastNamed
  rw [List.reverse_append, List.reverse_singleton, List.singleton_append, List.find?_cons]
  split <;> simp_all

namespace Dictionary.Keeps

theorem empty : Dictionary.empty.Keeps [] :=
  ⟨fun _ => rfl, fun _ => ⟨nofun, fun ⟨_, h, _⟩ => nomatch h⟩, .nil⟩

theorem insert (h : d.Keeps ws) (w : Word) : (d.insert w).Keeps (ws ++ [w]) where
  get? name := by
    rw [lastNamed_append]
    by_cases heq : Text.uppercase w.name = Text.uppercase name
    · rw [if_pos heq]
      exact get?_insert_self heq.symm
    · rw [if_neg heq, ← h.get?]
      exact get?_insert_of_ne fun h => heq h.symm
  keys key := by
    refine mem_keys_insertEntry.trans ((or_congr_right (h.keys key)).trans ?_)
    simp only [List.mem_append, List.mem_singleton]
    grind
  sorted := sorted_insertEntry h.sorted

theorem perm_keys (h : d.Keeps ws) :
    d.keys.Perm (ws.map fun w => Text.uppercase w.name).dedup := by
  have hnodup : d.keys.Nodup := h.sorted.imp fun hlt => Text.ne_of_lt hlt
  refine (List.perm_ext_iff_of_nodup hnodup (List.nodup_dedup _)).mpr fun key => ?_
  rw [h.keys, List.mem_dedup, List.mem_map]

end Dictionary.Keeps

namespace Catalogued

theorem keeps (h : Catalogued ws m) : m.dictionary.Keeps ws := ⟨h.get?, h.keys, h.sorted⟩

theorem congr (h : Catalogued ws m) (hdictionary : n.dictionary = m.dictionary)
    (hserial : n.nextSerial = m.nextSerial) : Catalogued ws n := by
  refine ⟨?_, ?_, ?_, ?_, ?_, hserial ▸ h.count⟩ <;> rw [hdictionary]
  · exact h.get?
  · exact h.keys
  · exact h.names
  · exact h.sorted
  · exact hserial ▸ h.serials

theorem insert (h : Catalogued ws m) (hw : w.serial = m.nextSerial)
    (hname : Text.uppercase w.name = w.name) (hdictionary : n.dictionary = m.dictionary.insert w)
    (hserial : n.nextSerial = m.nextSerial + 1) : Catalogued (ws ++ [w]) n where
  get? := hdictionary ▸ (h.keeps.insert w).get?
  keys := hdictionary ▸ (h.keeps.insert w).keys
  names e he := by
    rw [hdictionary] at he
    rcases Dictionary.mem_insertEntry he with rfl | he
    · exact ⟨hname, Text.uppercase_uppercase _⟩
    · exact h.names e he
  sorted := hdictionary ▸ (h.keeps.insert w).sorted
  serials e he := by
    rw [hdictionary] at he
    rw [hserial]
    rcases Dictionary.mem_insertEntry he with rfl | he
    · exact Nat.lt_succ_of_le (Nat.le_of_eq hw)
    · exact (h.serials e he).trans (Nat.lt_succ_self _)
  count := by rw [List.length_append, h.count, hserial]; rfl

/-- The word added is found by its serial number. -/
theorem addedWord?_eq (h : Catalogued ws m) (hw : w.serial = m.nextSerial)
    (hdictionary : n.dictionary = m.dictionary.insert w)
    (hserial : n.nextSerial = m.nextSerial + 1) : addedWord? m n = some w := by
  have hmem := Dictionary.mem_insertEntry_self (Text.uppercase w.name) w m.dictionary.entries
  unfold addedWord?
  rw [if_neg (by omega), hdictionary]
  cases hfind : (m.dictionary.insert w).entries.find? fun e => e.2.serial = m.nextSerial with
  | none =>
    have hnone := List.find?_eq_none.mp hfind _ hmem
    exact absurd (decide_eq_true hw) hnone
  | some e =>
    have hserial := List.find?_some hfind
    rcases Dictionary.mem_insertEntry (List.mem_of_find?_eq_some hfind) with rfl | he
    · rfl
    · have hlt := h.serials e he
      rw [of_decide_eq_true hserial] at hlt
      exact absurd hlt (Nat.lt_irrefl _)

theorem extend (h : Catalogued ws m) (hk : Extends m k) :
    Catalogued (ws ++ (addedWord? m k).toList) k := by
  cases hk with
  | kept hdictionary hserial =>
    have hnone : addedWord? m k = none := if_pos hserial
    rw [hnone, Option.toList_none, List.append_nil]
    exact h.congr hdictionary hserial
  | added hw hname hdictionary hserial =>
    rw [h.addedWord?_eq hw hdictionary hserial]
    exact h.insert hw hname hdictionary hserial

end Catalogued

/-! ## Operations -/

theorem extends_withWord (m : Machine) (heading : Heading) (d : Definition) :
    Extends m (m.withWord heading d).2 := by
  have hname : Text.uppercase (m.withWord heading d).1.name = (m.withWord heading d).1.name :=
    Text.uppercase_uppercase heading.name
  exact .added rfl hname rfl rfl

theorem extends_install (m : Machine) (name : String) (b : BuiltIn) :
    Extends m (m.install name b) :=
  .added (w := ⟨m.nextSerial, Text.uppercase name, b.isImmediate, none, b.description, b.signature,
    .builtIn b⟩) rfl (Text.uppercase_uppercase name) rfl rfl

/-- A word is added to a machine that has been changed otherwise before. -/
theorem Extends.of_kept (h : Extends n k) (hdictionary : n.dictionary = m.dictionary)
    (hserial : n.nextSerial = m.nextSerial) : Extends m k := by
  cases h with
  | kept hd hs => exact .kept (hd.trans hdictionary) (hs.trans hserial)
  | added hw hname hd hs =>
    exact .added (hw.trans hserial) hname (hdictionary ▸ hd) (hserial ▸ hs)

theorem extends_withActive (m : Machine) (vs : List Value) : Extends m (m.withActive vs) :=
  .kept (withActive_words m vs).1 (withActive_words m vs).2

theorem extends_change (h : Change m n) : Extends m n := by
  cases h with
  | active vs => exact extends_withActive m vs
  | word heading d => exact extends_withWord m heading d
  | allocated | stored | written | opened | closed | moved | noted | collected | replied =>
    exact .kept rfl rfl

/-- Only the words that define a word add to the dictionary. -/
theorem extends_builtIn (b : BuiltIn) (m : Machine) : Extends m (left (b.run m)) := by
  have ho := BuiltIn.outcome b m
  generalize b.run m = x at ho
  cases ho with
  | underflow | nameless | opened | comment | unterminated | blockComment | unterminatedBlock
  | notOpen => exact .kept rfl rfl
  | mismatch | rearranged | storedNowhere | fetched | fetchedNowhere =>
    exact extends_withActive m _
  | stored => exact .kept (withActive_words m _).1 (withActive_words m _).2
  | wrote hw =>
    obtain ⟨vs, -, rfl⟩ := BuiltIn.machine_of_writing hw
    rw [write_apply]
    split
    · exact extends_withActive m vs
    · exact .kept (withActive_words m vs).1 (withActive_words m vs).2
  | «variable» | closed => exact (extends_withWord _ _ _).of_kept rfl rfl
  | @constant t rs v vs =>
    have hwords := withActive_words { m with readers := rs } vs
    exact (extends_withWord _ _ _).of_kept hwords.1 hwords.2
  | @text s rs => exact (extends_withActive { m with readers := rs } _).of_kept rfl rfl

theorem extends_operation (h : Operation m n) : Extends m n := by
  cases h with
  | change hc => exact extends_change hc
  | builtIn b => exact extends_builtIn b m
  | look | read | enter | leave | sink | observe => exact .kept rfl rfl

/-! ## Courses -/

theorem Catalogued.course (h : Catalogued ws m) (hc : Course m ms n) :
    Catalogued (ws ++ wordsAdded m ms) n := by
  induction hc generalizing ws with
  | nil =>
    rw [wordsAdded, List.append_nil]
    exact h
  | cons first _ ih =>
    rw [wordsAdded, ← List.append_assoc]
    exact ih (h.extend (extends_operation first))

theorem catalogued_blank : Catalogued [] blank where
  get? := Dictionary.Keeps.empty.get?
  keys := Dictionary.Keeps.empty.keys
  names _ h := nomatch h
  sorted := Dictionary.Keeps.empty.sorted
  serials _ h := nomatch h
  count := rfl

theorem wordsAdded_append_installed (bs : List (String × BuiltIn)) (m : Machine)
    (ms : List Machine) : wordsAdded m (installed m bs ++ ms) =
      wordsAdded m (installed m bs) ++
        wordsAdded (bs.foldl (fun m e => m.install e.1 e.2) m) ms := by
  induction bs generalizing m with
  | nil => rfl
  | cons b bs ih =>
    rw [installed, List.cons_append, wordsAdded, wordsAdded, ih, List.append_assoc]
    rfl

theorem Catalogued.installed (h : Catalogued ws m) (bs : List (String × BuiltIn)) :
    Catalogued (ws ++ wordsAdded m (installed m bs))
      (bs.foldl (fun m e => m.install e.1 e.2) m) := by
  induction bs generalizing ws m with
  | nil =>
    rw [WordStack.installed, wordsAdded, List.append_nil]
    exact h
  | cons b bs ih =>
    rw [WordStack.installed, wordsAdded, ← List.append_assoc]
    exact ih (h.extend (extends_install m b.1 b.2))

theorem catalogued_history (h : Course .fresh ms n) : Catalogued (history ms) n := by
  have hfresh := catalogued_blank.installed BuiltIn.named
  have hn := Catalogued.course (m := fresh) hfresh h
  unfold history
  rw [wordsAdded_append_installed]
  rw [List.nil_append] at hn
  exact hn

theorem mem_keys_of_course (h : Course m ms n) : ∀ key ∈ m.dictionary.keys,
    key ∈ n.dictionary.keys := by
  induction h with
  | nil => exact fun _ hkey => hkey
  | cons first _ ih =>
    intro key hkey
    refine ih key ?_
    cases extends_operation first with
    | kept hdictionary => rwa [hdictionary]
    | added _ _ hdictionary =>
      rw [hdictionary]
      exact Dictionary.mem_keys_insertEntry.mpr (.inr hkey)

/-! ## Main result -/

/-- On a machine to which these words were added, a name stands for the word last added under it,
however it is looked up. -/
structure LookUpsAgree (ws : List Word) (m : Machine) : Prop where
  find : ∀ name host, perform host (.find name) m = .ok (.found (lastNamed ws name)) m
  resolve_word : ∀ name w, lastNamed ws name = some w → resolve name m = .ok (.word w) m
  resolve_number : ∀ name, lastNamed ws name = none →
    Number.IsNumeral (Text.uppercase name) → ∃ x, resolve name m = .ok (.number x) m
  resolve_unknown : ∀ name, lastNamed ws name = none → ¬ Number.IsNumeral (Text.uppercase name) →
    resolve name m = fail (.unknownWord (Text.uppercase name)) m
  execute : ∀ name w host l, lastNamed ws name = some w →
    perform host (.execute name l) m = (do execute host l w; return .nothing : Act Reply) m
  execute_unknown : ∀ name host l, lastNamed ws name = none →
    perform host (.execute name l) m = fail (.unknownWord (Text.uppercase name)) m
  keys : ∀ e ∈ m.dictionary.entries, e.1 = e.2.name ∧ Text.uppercase e.1 = e.1
  size : m.dictionary.size = (ws.map fun w => Text.uppercase w.name).dedup.length

theorem Catalogued.size (h : Catalogued ws m) :
    m.dictionary.size = (ws.map fun w => Text.uppercase w.name).dedup.length := by
  have hlength : m.dictionary.keys.length = m.dictionary.size := List.length_map _
  rw [← hlength, h.keeps.perm_keys.length_eq]

theorem Catalogued.lookUpsAgree (h : Catalogued ws m) : LookUpsAgree ws m where
  find name host := by
    rw [← h.get?]
    rfl
  resolve_word name w hw := by
    rw [← h.get?, ← Dictionary.get?_uppercase] at hw
    exact resolve_of_word hw
  resolve_number name hnone hnumeral := by
    rw [← h.get?, ← Dictionary.get?_uppercase] at hnone
    obtain ⟨x, hx⟩ := Option.isSome_iff_exists.mp ((Number.parse?_isSome_iff _).mpr hnumeral)
    exact ⟨x, resolve_of_number hnone hx⟩
  resolve_unknown name hnone hnumeral := by
    rw [← h.get?, ← Dictionary.get?_uppercase] at hnone
    rw [← Number.parse?_isSome_iff, Option.not_isSome_iff_eq_none] at hnumeral
    exact resolve_of_unknown hnone hnumeral
  execute name w host l hw := by
    rw [← h.get?] at hw
    exact bind_ok (findWord_of_some hw) _
  execute_unknown name host l hnone := by
    rw [← h.get?] at hnone
    exact bind_error (findWord_of_none hnone) _
  keys := h.names
  size := h.size

/-- After any operations of host programs and running texts, successful or not, all look-ups of a
name find the word last added whose name is the same in upper case, or none if there was none; the
dictionary has one entry for each name ever added, under the name in upper case. No entry is ever
taken away. A session is a course of such operations. -/
theorem look_ups_agree :
    (∀ ms n, Course .fresh ms n → LookUpsAgree (history ms) n) ∧
    (∀ m ms n, Course m ms n → ∀ key ∈ m.dictionary.keys, key ∈ n.dictionary.keys) ∧
    ∀ script, Course .fresh (Session.course .fresh script) (Session.after .fresh script) :=
  ⟨fun _ _ h => (catalogued_history h).lookUpsAgree, fun _ _ _ h => mem_keys_of_course h,
    fun script => Session.course_after .fresh script⟩

/-- A host word whose name takes two letters in upper case, and then a word of that name. -/
theorem look_ups_agree_sharp : ∃ script,
    ((history (Session.course .fresh script)).drop 32).map (fun w => (w.name, w.definition.kind)) =
      [("SS", "native"), ("SS", "compiled")] ∧
    (lastNamed (history (Session.course .fresh script)) "sS").map (·.definition.kind) =
      some "compiled" ∧
    LookUpsAgree (history (Session.course .fresh script)) (Session.after .fresh script) := by
  obtain ⟨hagree, -, hsession⟩ := look_ups_agree
  refine ⟨[.perform (.define "ß" false []), .perform (.run "s" ": ss 1 ;")], ?_, ?_,
    hagree _ _ (hsession _)⟩
  · decide +kernel
  · decide +kernel

end WordStack
