import Mathlib.Tactic
import PathScout.Report.Plist

/-!
# Documents of diagnostics

A property list is read in two steps. A text gives tags, with blanks and ends of lines between them, and tags
give an element: a dictionary with a value for each key, an array, a text or a number. A document of diagnostics
is read so as one element. The texts in it are read back as they were, and every number of a file leads to the
file of the diagnostic that it stands in.

* `entities`, `unescape`: the characters with a meaning of their own, and a text with them put back.
* `Tag.ofText?`: the tags of a text. `Element.ofTags?`: the element of some tags. `read?`: the element of a
  document.
* `unescape_escape`, `ofText?_lines`, `ofTags?_tags`: what is written is read back.
* `Element.ofDiagnostics`: the element of a document, with one function for each part of it.
* `tagsOf_ofDiagnostics`: the lines of a document have the tags of this element.
* `Element.Of`: an element in what is written of one file.
* `render_faithful`: documents are well formed, texts come back from them, and files are numbered rightly.
-/

namespace PathScout

open List

namespace Plist

variable {p : Char × List Char} {c : Char} {t : Tag}

/-! ### Texts -/

/-- The characters that have a meaning of their own in a document, and how they are written. -/
def entities : List (Char × List Char) :=
  [('&', ['&', 'a', 'm', 'p', ';']), ('<', ['&', 'l', 't', ';']), ('>', ['&', 'g', 't', ';']),
    ('\'', ['&', 'a', 'p', 'o', 's', ';']), ('"', ['&', 'q', 'u', 'o', 't', ';'])]

/-- The entity at the head of a text, with the character that it stands for. -/
def entity? (cs : List Char) : Option (Char × List Char) := entities.find? fun p => p.2.isPrefixOf cs

/-- A text with its entities replaced by the characters that they stand for. -/
def unescape (cs : List Char) : List Char :=
  match cs with
  | [] => []
  | c :: rest =>
    match entity? (c :: rest) with
    | some (c', entity) => c' :: unescape (rest.drop (entity.length - 1))
    | none => c :: unescape rest
termination_by cs.length
decreasing_by all_goals simp_all

/-- A character is written as its entity, or else as itself. -/
theorem escapeChar_cases (c : Char) :
    (c, escapeChar c) ∈ entities ∨ c ∉ entities.map (·.1) ∧ escapeChar c = [c] := by
  unfold escapeChar
  split
  all_goals first | exact .inl (by decide) | refine .inr ⟨?_, rfl⟩
  simp_all [entities]

theorem entity?_append (hp : p ∈ entities) (cs : List Char) : entity? (p.2 ++ cs) = some p := by
  simp only [entities, mem_cons, not_mem_nil, or_false] at hp
  obtain rfl | rfl | rfl | rfl | rfl := hp <;> rfl

theorem head_of_mem_entities (hp : p ∈ entities) : ∃ more, p.2 = '&' :: more ∧ '&' ∉ more := by
  simp only [entities, mem_cons, not_mem_nil, or_false] at hp
  obtain rfl | rfl | rfl | rfl | rfl := hp <;> exact ⟨_, rfl, by decide⟩

theorem entity?_of_ne (hc : c ≠ '&') (cs : List Char) : entity? (c :: cs) = none := by
  simp [entity?, entities, hc.symm]

theorem unescape_append (hp : p ∈ entities) (cs : List Char) :
    unescape (p.2 ++ cs) = p.1 :: unescape cs := by
  obtain ⟨more, hmore, -⟩ := head_of_mem_entities hp
  have hfound := entity?_append hp cs
  rw [hmore, cons_append] at hfound ⊢
  rw [unescape, hfound]
  simp [hmore]

/-- **Texts come back** when the entities are replaced. -/
theorem unescape_flatMap (cs : List Char) : unescape (cs.flatMap escapeChar) = cs := by
  induction cs with
  | nil => rw [flatMap_nil, unescape]
  | cons c cs ih =>
    rw [flatMap_cons]
    obtain hmem | ⟨hnot, heq⟩ := escapeChar_cases c
    · rw [unescape_append hmem, ih]
    · have hc : c ≠ '&' := by
        rintro rfl
        exact hnot (by decide)
      rw [heq, singleton_append, unescape, entity?_of_ne hc, ih]

theorem unescape_escape (s : String) : String.ofList (unescape (escape s).toList) = s := by
  rw [escape, String.toList_ofList, unescape_flatMap, String.ofList_toList]

theorem escape_injective : Function.Injective escape := by
  intro s t h
  rw [← unescape_escape s, h, unescape_escape]

/-- Brackets and quotes are never written in a text. -/
theorem notMem_escape (hc : c ∈ ['<', '>', '\'', '"']) (s : String) : c ∉ (escape s).toList := by
  rw [escape, String.toList_ofList, mem_flatMap]
  rintro ⟨d, -, hd⟩
  obtain hmem | ⟨hnot, heq⟩ := escapeChar_cases d
  · revert hd
    generalize escapeChar d = written at hmem
    simp only [entities, mem_cons, not_mem_nil, or_false, Prod.mk.injEq] at hmem hc
    obtain ⟨-, rfl⟩ | ⟨-, rfl⟩ | ⟨-, rfl⟩ | ⟨-, rfl⟩ | ⟨-, rfl⟩ := hmem <;>
      obtain rfl | rfl | rfl | rfl := hc <;> decide
  · rw [heq, mem_singleton] at hd
    subst hd
    simp only [mem_cons, not_mem_nil, or_false] at hc
    obtain rfl | rfl | rfl | rfl := hc <;> exact hnot (by decide)

/-- An ampersand in a written text is the start of an entity. -/
theorem exists_entity_of_suffix {post : List Char} {cs : List Char}
    (h : '&' :: post <:+ cs.flatMap escapeChar) : ∃ p ∈ entities, p.2 <+: '&' :: post := by
  induction cs with
  | nil => simp at h
  | cons c cs ih =>
    rw [flatMap_cons] at h
    obtain ⟨before, hbefore⟩ := h
    obtain ⟨within, hw, hpost⟩ | ⟨within, hw, hpost⟩ := append_eq_append_iff.1 hbefore
    · cases within with
      | nil => exact ih ⟨[], by simpa using hpost⟩
      | cons d within =>
        -- the ampersand is the only one of its entity, so the entity starts with it
        obtain ⟨rfl, hpost⟩ := cons.inj hpost
        obtain hmem | ⟨hnot, heq⟩ := escapeChar_cases c
        · obtain ⟨more, hmore, hfree⟩ : ∃ more, escapeChar c = '&' :: more ∧ '&' ∉ more :=
            head_of_mem_entities hmem
          rw [hmore] at hw
          cases before with
          | nil =>
            refine ⟨_, hmem, List.flatMap escapeChar cs, ?_⟩
            rw [hpost, hmore, hw]
            rfl
          | cons d before =>
            obtain ⟨-, hw⟩ := cons.inj hw
            exact absurd (hw ▸ by simp) hfree
        · rw [heq] at hw
          have : '&' = c := by
            have : '&' ∈ [c] := hw ▸ by simp
            simpa using this
          subst this
          exact absurd (by decide) hnot
    · exact ih ⟨within, hpost.symm⟩

/-! ### Tags -/

/-- The tag of a whole element with the given name and contents. -/
def Tag.whole? (name content : List Char) : Option Tag :=
  if name = ['k', 'e', 'y'] then some (.key (String.ofList content))
  else if name = ['s', 't', 'r', 'i', 'n', 'g'] then some (.string (String.ofList (unescape content)))
  else if name = ['i', 'n', 't', 'e', 'g', 'e', 'r'] ∧ content ≠ [] ∧ content.all Char.isDigit then
    some (.integer (Nat.ofDigitChars 10 content 0))
  else none

/-- How the end of an element is written. -/
def closeText (name : List Char) : List Char := '<' :: '/' :: (name ++ ['>'])

/-- The tags of a text. Blanks and ends of lines may stand between them. Keys, texts and numbers are elements
on their own, dictionaries and arrays have tags for their start and their end. -/
def Tag.ofText? (cs : List Char) : Option (List Tag) :=
  match cs with
  | [] => some []
  | c :: rest =>
    if c = ' ' ∨ c = '\n' then ofText? rest
    else if c = '<' then
      let name := rest.takeWhile (· != '>')
      let content := rest.drop (name.length + 1)
      if rest.length ≤ name.length then none
      else if name = ['d', 'i', 'c', 't'] ∨ name = ['a', 'r', 'r', 'a', 'y'] then
        (ofText? content).map (.opening (String.ofList name) :: ·)
      else if name = ['/', 'd', 'i', 'c', 't'] ∨ name = ['/', 'a', 'r', 'r', 'a', 'y'] then
        (ofText? content).map (.closing (String.ofList (name.drop 1)) :: ·)
      else
        let inner := content.takeWhile (· != '<')
        let close := closeText name
        if close.isPrefixOf (content.drop inner.length) then do
          let tag ← whole? name inner
          let more ← ofText? (content.drop (inner.length + close.length))
          return tag :: more
        else none
    else none
termination_by cs.length
decreasing_by
  all_goals
    simp only [length_cons, length_drop]
    omega

/-- A tag that is read back as it is written: only dictionaries and arrays have tags for their start and end,
and a key has no bracket in it. -/
def Tag.Plain : Tag → Prop
  | opening name | closing name => name = "dict" ∨ name = "array"
  | key name => '<' ∉ name.toList
  | string _ | integer _ => True

/-- The tag of a whole element is read from its text. -/
theorem Tag.ofText?_whole (name content : List Char) (ht : whole? name content = some t)
    (hcontent : '<' ∉ content) (rest : List Char) :
    ofText? ('<' :: (name ++ '>' :: (content ++ (closeText name ++ rest)))) =
      (ofText? rest).map (t :: ·) := by
  have hname : name = ['k', 'e', 'y'] ∨ name = ['s', 't', 'r', 'i', 'n', 'g'] ∨
      name = ['i', 'n', 't', 'e', 'g', 'e', 'r'] := by
    unfold whole? at ht
    split_ifs at ht <;> simp_all
  have hopen : (name ++ '>' :: (content ++ (closeText name ++ rest))).takeWhile (· != '>') = name := by
    obtain rfl | rfl | rfl := hname <;> simp
  have hinner : (content ++ (closeText name ++ rest)).takeWhile (· != '<') = content := by
    rw [takeWhile_append_of_pos fun c hc => by
      simpa using fun h : c = '<' => hcontent (h ▸ hc)]
    simp [closeText]
  have hafter : (name ++ '>' :: (content ++ (closeText name ++ rest))).drop (name.length + 1) =
      content ++ (closeText name ++ rest) := by
    rw [← singleton_append, ← append_assoc, ← length_singleton, ← length_append, drop_left]
  have hrest : (content ++ (closeText name ++ rest)).drop (content.length + (closeText name).length) =
      rest := by
    rw [← append_assoc, ← length_append, drop_left]
  rw [ofText?, if_neg (by decide), if_pos rfl]
  simp only [hopen, hafter, hinner, hrest, drop_left]
  rw [if_neg (by simp), if_neg (by obtain rfl | rfl | rfl := hname <;> decide),
    if_neg (by obtain rfl | rfl | rfl := hname <;> decide), if_pos (by simp), ht]
  cases ofText? rest <;> rfl

theorem Tag.ofText?_text (ht : t.Plain) (rest : List Char) :
    ofText? (t.text.toList ++ rest) = (ofText? rest).map (t :: ·) := by
  cases t with
  | opening name | closing name => obtain rfl | rfl := ht <;> simp [Tag.text, ofText?]
  | key name =>
    have := ofText?_whole ['k', 'e', 'y'] name.toList (t := .key name)
      (by simp [whole?]) ht rest
    simpa [Tag.text, element, closeText] using this
  | string s =>
    have := ofText?_whole ['s', 't', 'r', 'i', 'n', 'g'] (escape s).toList
      (t := .string s) (by simp [whole?, unescape_escape]) (notMem_escape (by decide) s) rest
    simpa [Tag.text, element, closeText] using this
  | integer n =>
    have hdigits : (toString n).toList = Nat.toDigits 10 n := by
      rw [Nat.toString_eq_ofList_toDigits, String.toList_ofList]
    have hall : ∀ c ∈ Nat.toDigits 10 n, c.isDigit := fun c hc =>
      Nat.isDigit_of_mem_toDigits (by decide) (by decide) hc
    have := ofText?_whole ['i', 'n', 't', 'e', 'g', 'e', 'r'] (Nat.toDigits 10 n)
      (t := .integer n) ?_ (fun h => absurd (hall _ h) (by decide)) rest
    · simpa [Tag.text, element, closeText, hdigits] using this
    · rw [whole?, if_neg (by decide), if_neg (by decide),
        if_pos ⟨rfl, Nat.toDigits_ne_nil, all_eq_true.2 hall⟩, Nat.ofDigitChars_ten_toDigits]

theorem Tag.ofText?_blanks (n : Nat) (rest : List Char) :
    ofText? (List.replicate n ' ' ++ rest) = ofText? rest := by
  induction n with
  | zero => rfl
  | succ n ih => rw [replicate_succ, cons_append, ofText?, if_pos (by decide), ih]

theorem Tag.ofText?_tags {tags : List Tag} (h : ∀ t ∈ tags, t.Plain) (rest : List Char) :
    ofText? ((String.join (tags.map (·.text))).toList ++ rest) = (ofText? rest).map (tags ++ ·) := by
  induction tags with
  | nil => simp
  | cons t tags ih =>
    obtain ⟨ht, htags⟩ := forall_mem_cons.1 h
    rw [map_cons, String.join_cons, String.toList_append, append_assoc, ofText?_text ht, ih htags,
      Option.map_map]
    rfl

theorem ofText?_line {l : Line} (h : ∀ t ∈ l.tags, t.Plain) (rest : List Char) :
    Tag.ofText? (l.text.toList ++ rest) = (Tag.ofText? rest).map (l.tags ++ ·) := by
  rw [Line.text, String.toList_append, String.toList_append, String.toList_ofList, append_assoc,
    append_assoc, Tag.ofText?_blanks, Tag.ofText?_tags h]
  congr 1
  rw [show "\n".toList = ['\n'] from rfl, singleton_append, Tag.ofText?, if_pos (by decide)]

/-- **Lines are read** as their tags. -/
theorem ofText?_lines {lines : List Line} (h : ∀ l ∈ lines, ∀ t ∈ l.tags, t.Plain) :
    Tag.ofText? (String.join (lines.map (·.text))).toList = some (lines.flatMap (·.tags)) := by
  induction lines with
  | nil => simp [Tag.ofText?]
  | cons l lines ih =>
    obtain ⟨hl, hlines⟩ := forall_mem_cons.1 h
    rw [map_cons, String.join_cons, String.toList_append, ofText?_line hl, ih hlines]
    rfl

/-! ### Elements -/

/-- An element: a dictionary with a value for each key, an array, a text or a number. -/
inductive Element where
  | dict (entries : List (String × Element))
  | array (items : List Element)
  | string (text : String)
  | integer (value : Nat)

namespace Element

mutual

/-- The tags that an element is written with. -/
def tags : Element → List Tag
  | dict entries => .opening "dict" :: (entryTags entries ++ [.closing "dict"])
  | array items => .opening "array" :: (itemTags items ++ [.closing "array"])
  | string s => [.string s]
  | integer n => [.integer n]

/-- The tags of the keys of a dictionary with their values. -/
def entryTags : List (String × Element) → List Tag
  | [] => []
  | (key, e) :: rest => .key key :: (tags e ++ entryTags rest)

/-- The tags of some elements. -/
def itemTags : List Element → List Tag
  | [] => []
  | e :: rest => tags e ++ itemTags rest

end

theorem itemTags_eq (items : List Element) : itemTags items = items.flatMap tags := by
  induction items with
  | nil => rw [itemTags, flatMap_nil]
  | cons e rest ih => rw [itemTags, ih, flatMap_cons]

/-- An element whose end was not read yet, with what was read of it. A dictionary may wait for the value of a
key. -/
inductive Opened where
  | dict (entries : List (String × Element)) (key : Option String)
  | array (items : List Element)

/-- Puts an element where it was read: as the value of the last key, or at the end of an array. -/
def place (e : Element) : List Opened → Option (List Opened)
  | .dict entries (some key) :: outer => some (.dict (entries ++ [(key, e)]) none :: outer)
  | .array items :: outer => some (.array (items ++ [e]) :: outer)
  | _ => none

/-- Reads a tag inside of some elements, innermost first. -/
def step : Tag → List Opened → Option (List Opened)
  | .opening name, stack =>
    if name = "dict" then some (.dict [] none :: stack)
    else if name = "array" then some (.array [] :: stack)
    else none
  | .closing name, .dict entries none :: outer => if name = "dict" then place (.dict entries) outer else none
  | .closing name, .array items :: outer => if name = "array" then place (.array items) outer else none
  | .key key, .dict entries none :: outer => some (.dict entries (some key) :: outer)
  | .string s, stack => place (.string s) stack
  | .integer n, stack => place (.integer n) stack
  | _, _ => none

/-- Reads tags inside of some elements. -/
def run : List Tag → List Opened → Option (List Opened)
  | [], stack => some stack
  | t :: ts, stack => (step t stack).bind (run ts)

/-- The element that is written with the given tags. -/
def ofTags? (ts : List Tag) : Option Element :=
  match run ts [.array []] with
  | some [.array [e]] => some e
  | _ => none

mutual

theorem run_tags (e : Element) (ts : List Tag) (stack : List Opened) :
    run (e.tags ++ ts) stack = (place e stack).bind (run ts) := by
  cases e with
  | dict entries =>
    rw [tags, cons_append, append_assoc, run, step, if_pos rfl, Option.bind_some, run_entryTags entries]
    simp [run, step]
  | array items =>
    rw [tags, cons_append, append_assoc, run, step, if_neg (by decide), if_pos rfl,
      Option.bind_some, run_itemTags items]
    simp [run, step]
  | string s | integer n => simp [tags, run, step]

theorem run_entryTags (more : List (String × Element)) (entries : List (String × Element)) (ts : List Tag)
    (outer : List Opened) :
    run (entryTags more ++ ts) (.dict entries none :: outer) =
      run ts (.dict (entries ++ more) none :: outer) := by
  cases more with
  | nil => simp [entryTags]
  | cons p rest =>
    obtain ⟨key, e⟩ := p
    rw [entryTags, cons_append, append_assoc, run, step, Option.bind_some, run_tags e, place,
      Option.bind_some, run_entryTags rest]
    simp

theorem run_itemTags (more items : List Element) (ts : List Tag) (outer : List Opened) :
    run (itemTags more ++ ts) (.array items :: outer) = run ts (.array (items ++ more) :: outer) := by
  cases more with
  | nil => simp [itemTags]
  | cons e rest =>
    rw [itemTags, append_assoc, run_tags e, place, Option.bind_some, run_itemTags rest]
    simp

end

/-- **An element comes back** from its tags. -/
theorem ofTags?_tags (e : Element) : ofTags? e.tags = some e := by
  have := run_tags e [] [.array []]
  rw [append_nil] at this
  rw [ofTags?, this]
  rfl

/-! ### The parts of an element -/

/-- The value of a key. -/
def at? (key : String) : Element → Option Element
  | dict entries => entries.lookup key
  | _ => none

/-- The elements of an array. -/
def items? : Element → Option (List Element)
  | array items => some items
  | _ => none

mutual

/-- All values of a key in an element, however deep. -/
def valuesOf (key : String) : Element → List Element
  | dict entries => entryValues key entries
  | array items => itemValues key items
  | string _ | integer _ => []

/-- All values of a key in a dictionary, however deep. -/
def entryValues (key : String) : List (String × Element) → List Element
  | [] => []
  | (k, e) :: rest => (if k = key then [e] else []) ++ valuesOf key e ++ entryValues key rest

/-- All values of a key in some elements, however deep. -/
def itemValues (key : String) : List Element → List Element
  | [] => []
  | e :: rest => valuesOf key e ++ itemValues key rest

end

theorem itemValues_eq (key : String) (items : List Element) :
    itemValues key items = items.flatMap (valuesOf key) := by
  induction items with
  | nil => rw [itemValues, flatMap_nil]
  | cons e rest ih => rw [itemValues, ih, flatMap_cons]

end Element

/-! ### Reading documents -/

/-- What stands after the lines of a document. -/
def footer : List Char := ['<', '/', 'p', 'l', 'i', 's', 't', '>']

/-- The element of a document. -/
def read? (text : String) : Option Element :=
  let body := text.toList.drop header.toList.length
  if header.toList.isPrefixOf text.toList ∧ footer.isSuffixOf body then
    (Tag.ofText? (body.take (body.length - footer.length))).bind Element.ofTags?
  else none

theorem read?_eq {body : String} {e : Element} (h : Tag.ofText? body.toList = some e.tags) :
    read? (header ++ body ++ "</plist>") = some e := by
  have hfooter : "</plist>".toList = footer := rfl
  simp [read?, hfooter, h, Element.ofTags?_tags]

namespace Element

/-! ### The parts of a document -/

/-- A position in a file. -/
def ofLocation (file : Nat) (l : Location) : Element :=
  .dict [("line", .integer l.line), ("col", .integer l.column), ("file", .integer file)]

/-- A piece of a file. -/
def ofSpan (file : Nat) (s : Span) : Element := .array [ofLocation file s.first, ofLocation file s.last]

/-- A jump. -/
def ofEdge (file : Nat) (e : ControlEdge) : Element :=
  .dict [("start", ofSpan file e.start), ("end", ofSpan file e.stop)]

/-- Jumps with something to say. -/
def ofControl (file : Nat) (edges : List ControlEdge) (message : String) : Element :=
  .dict ([("kind", .string "control"), ("edges", .array (edges.map (ofEdge file)))] ++
    if message.isEmpty then [] else [("alternate", .string message)])

/-- An event. -/
def ofEvent (file depth : Nat) (e : EventPiece) : Element :=
  .dict ([("kind", .string "event"), ("location", ofLocation file e.location)] ++
    (if e.spans.isEmpty then [] else [("ranges", .array (e.spans.map (ofSpan file)))]) ++
    [("depth", .integer depth), ("extended_message", .string e.message), ("message", .string e.message)])

mutual

/-- A piece of a path. At the use of a defined name its jumps are left out. -/
def ofPiece (file depth : Nat) (jumps : Bool) : PathPiece → List Element
  | .control edges message => if jumps then [ofControl file edges message] else []
  | .event e => [ofEvent file depth e]
  | .call _ enter within path exit =>
    enter.toList.map (ofEvent file depth) ++ within.toList.map (ofEvent file (depth + 1)) ++
      ofPieces file (depth + 1) true path ++ exit.toList.map (ofEvent file (depth + 1))
  | .expansion _ _ parts => ofPieces file depth false parts

/-- Pieces of a path. -/
def ofPieces (file depth : Nat) (jumps : Bool) : List PathPiece → List Element
  | [] => []
  | p :: rest => ofPiece file depth jumps p ++ ofPieces file depth jumps rest

end

/-- A diagnostic of a file. -/
def ofDiagnostic (file : Nat) (d : Diagnostic) : Element :=
  .dict ([("path", .array (ofPieces file 0 true d.path)), ("description", .string d.description),
      ("category", .string d.type.category), ("type", .string d.type.name)] ++
    (match d.context with
      | none => []
      | some c => [("issue_context_kind", .string c.kind), ("issue_context", .string c.name)]) ++
    [("location", ofLocation file d.location)])

/-- A document. -/
def ofDiagnostics (ds : List Diagnostic) : Element :=
  .dict [("files", .array ((files ds).map .string)),
    ("diagnostics", .array (ds.map fun d => ofDiagnostic (fileIndex (files ds) d.file) d))]

end Element

/-! ### Lines and tags -/

/-- The tags of some lines. -/
def tagsOf (lines : List Line) : List Tag := lines.flatMap (·.tags)

@[simp] theorem tagsOf_nil : tagsOf [] = [] := rfl

@[simp] theorem tagsOf_cons (l : Line) (lines : List Line) : tagsOf (l :: lines) = l.tags ++ tagsOf lines := rfl

@[simp] theorem tagsOf_append (xs ys : List Line) : tagsOf (xs ++ ys) = tagsOf xs ++ tagsOf ys :=
  flatMap_append

@[simp] theorem tagsOf_wrap (indent : Nat) (name : String) (lines : List Line) :
    tagsOf (wrap indent name lines) = .opening name :: (tagsOf lines ++ [.closing name]) := by
  simp [wrap]

/-- Lines of several parts, each with the tags of its element. -/
theorem tagsOf_flatMap {α : Type} {lines : α → List Line} {element : α → Element}
    (h : ∀ x, tagsOf (lines x) = (element x).tags) (xs : List α) :
    tagsOf (xs.flatMap lines) = Element.itemTags (xs.map element) := by
  induction xs with
  | nil => rw [flatMap_nil, map_nil, Element.itemTags, tagsOf_nil]
  | cons x xs ih => rw [flatMap_cons, tagsOf_append, h, ih, map_cons, Element.itemTags]

section

variable (file indent : Nat)

theorem tagsOf_location (l : Location) :
    tagsOf (location file indent l) = (Element.ofLocation file l).tags := by
  simp [location, Element.ofLocation, Element.tags, Element.entryTags]

theorem tagsOf_span (s : Span) : tagsOf (span file indent s) = (Element.ofSpan file s).tags := by
  simp [span, Element.ofSpan, Element.tags, Element.itemTags, tagsOf_location]

theorem tagsOf_edge (e : ControlEdge) : tagsOf (edge file indent e) = (Element.ofEdge file e).tags := by
  simp [edge, Element.ofEdge, Element.tags, Element.entryTags, tagsOf_span]

theorem tagsOf_control (edges : List ControlEdge) (message : String) :
    tagsOf (control file indent edges message) = (Element.ofControl file edges message).tags := by
  have hedges := tagsOf_flatMap (tagsOf_edge file (indent + 3)) edges
  by_cases hm : message.isEmpty <;>
    simp [control, Element.ofControl, Element.tags, Element.entryTags, hedges, hm]

theorem tagsOf_event (depth : Nat) (e : EventPiece) :
    tagsOf (event file indent depth e) = (Element.ofEvent file depth e).tags := by
  have hspans := tagsOf_flatMap (tagsOf_span file (indent + 3)) e.spans
  by_cases hs : e.spans.isEmpty <;>
    simp [event, Element.ofEvent, Element.tags, Element.entryTags, hspans, hs, tagsOf_location]

theorem tagsOf_optionalEvent (depth : Nat) (e : Option EventPiece) :
    tagsOf (e.toList.flatMap (event file indent depth)) =
      Element.itemTags (e.toList.map (Element.ofEvent file depth)) :=
  tagsOf_flatMap (tagsOf_event file indent depth) e.toList

end

theorem Element.itemTags_append (xs ys : List Element) : itemTags (xs ++ ys) = itemTags xs ++ itemTags ys := by
  simp [itemTags_eq]

mutual

theorem tagsOf_piece (file indent depth : Nat) (jumps : Bool) (p : PathPiece) :
    tagsOf (piece file indent depth jumps p) = Element.itemTags (Element.ofPiece file depth jumps p) := by
  cases p with
  | event e => simp [piece, Element.ofPiece, Element.itemTags, tagsOf_event]
  | control edges message =>
    cases jumps <;> simp [piece, Element.ofPiece, Element.itemTags, tagsOf_control]
  | call site enter within path exit =>
    simp [piece, Element.ofPiece, Element.itemTags_append, tagsOf_optionalEvent,
      tagsOf_pieces file indent (depth + 1) true path]
  | expansion l name parts => rw [piece, Element.ofPiece, tagsOf_pieces file indent depth false parts]

theorem tagsOf_pieces (file indent depth : Nat) (jumps : Bool) (ps : List PathPiece) :
    tagsOf (pieces file indent depth jumps ps) = Element.itemTags (Element.ofPieces file depth jumps ps) := by
  cases ps with
  | nil => rw [pieces, Element.ofPieces, Element.itemTags, tagsOf_nil]
  | cons p rest =>
    rw [pieces, Element.ofPieces, tagsOf_append, Element.itemTags_append,
      tagsOf_piece file indent depth jumps p, tagsOf_pieces file indent depth jumps rest]

end

theorem tagsOf_diagnostic (file : Nat) (d : Diagnostic) :
    tagsOf (diagnostic file d) = (Element.ofDiagnostic file d).tags := by
  cases hc : d.context <;>
    simp [diagnostic, Element.ofDiagnostic, Element.tags, Element.entryTags, hc, tagsOf_pieces, tagsOf_location]

theorem tagsOf_texts (indent : Nat) (texts : List String) :
    tagsOf (texts.map fun s => ⟨indent, [.string s]⟩) = Element.itemTags (texts.map .string) := by
  induction texts with
  | nil => rw [map_nil, map_nil, Element.itemTags, tagsOf_nil]
  | cons s texts ih => rw [map_cons, map_cons, Element.itemTags, Element.tags, tagsOf_cons, ih]

/-- **The tags of a document** are those of one element. -/
theorem tagsOf_ofDiagnostics (ds : List Diagnostic) :
    tagsOf (ofDiagnostics ds) = (Element.ofDiagnostics ds).tags := by
  have heach : ∀ d, tagsOf (diagnostic (fileIndex (files ds) d.file) d) =
      (Element.ofDiagnostic (fileIndex (files ds) d.file) d).tags := fun d => tagsOf_diagnostic _ d
  have hall := tagsOf_flatMap heach ds
  rw [ofDiagnostics, Element.ofDiagnostics]
  simp only [tagsOf_wrap, tagsOf_cons, tagsOf_append, tagsOf_texts, hall, Element.tags, Element.entryTags]
  simp

/-! ### Keys and numbers of files -/

namespace Element

variable {entries : List (String × Element)}

/-- The element stands in what is written of one file: its keys are read back as they are written, and every
number of a file is that of this file. -/
structure Of (file : Nat) (e : Element) : Prop where
  plain : ∀ t ∈ e.tags, t.Plain
  files : ∀ v ∈ e.valuesOf "file", v = .integer file

variable {file : Nat}

attribute [local simp] tags entryTags valuesOf entryValues

theorem of_string (s : String) : Of file (.string s) := ⟨by simp [tags, Tag.Plain], by simp [valuesOf]⟩

theorem of_integer (n : Nat) : Of file (.integer n) := ⟨by simp [tags, Tag.Plain], by simp [valuesOf]⟩

theorem of_array {items : List Element} (h : ∀ e ∈ items, Of file e) : Of file (.array items) where
  plain := by
    intro t ht
    simp only [tags, itemTags_eq, mem_cons, mem_append, mem_flatMap, not_mem_nil,
      or_false] at ht
    obtain rfl | ⟨e, he, ht⟩ | rfl := ht
    · exact .inr rfl
    · exact (h e he).plain t ht
    · exact .inr rfl
  files := by
    intro v hv
    rw [valuesOf, itemValues_eq, mem_flatMap] at hv
    obtain ⟨e, he, hv⟩ := hv
    exact (h e he).files v hv

theorem of_entries
    (h : ∀ p ∈ entries, '<' ∉ p.1.toList ∧ Of file p.2 ∧ (p.1 = "file" → p.2 = .integer file)) :
    (∀ t ∈ entryTags entries, t.Plain) ∧ ∀ v ∈ entryValues "file" entries, v = .integer file := by
  induction entries with
  | nil => simp [entryTags, entryValues]
  | cons p rest ih =>
    obtain ⟨key, e⟩ := p
    obtain ⟨⟨hkey, he, hfile⟩, hrest⟩ := forall_mem_cons.1 h
    obtain ⟨ihtags, ihvalues⟩ := ih hrest
    constructor
    · intro t ht
      simp only [entryTags, mem_cons, mem_append] at ht
      obtain rfl | ht | ht := ht
      · exact hkey
      · exact he.plain t ht
      · exact ihtags t ht
    · intro v hv
      simp only [entryValues, mem_append] at hv
      obtain (hv | hv) | hv := hv
      · split_ifs at hv with hk
        · rw [mem_singleton] at hv
          exact hv ▸ hfile hk
        · cases hv
      · exact he.files v hv
      · exact ihvalues v hv

theorem of_dict
    (h : ∀ p ∈ entries, '<' ∉ p.1.toList ∧ Of file p.2 ∧ (p.1 = "file" → p.2 = .integer file)) :
    Of file (.dict entries) where
  plain := by
    intro t ht
    simp only [tags, mem_cons, mem_append, not_mem_nil, or_false] at ht
    obtain rfl | ht | rfl := ht
    · exact .inl rfl
    · exact (of_entries h).1 t ht
    · exact .inl rfl
  files := by
    rw [valuesOf]
    exact (of_entries h).2

theorem of_ofLocation (l : Location) : Of file (ofLocation file l) := of_dict (by simp [of_integer])

theorem of_ofSpan (s : Span) : Of file (ofSpan file s) := of_array (by simp [of_ofLocation])

theorem of_ofEdge (e : ControlEdge) : Of file (ofEdge file e) := of_dict (by simp [of_ofSpan])

theorem of_ofControl (edges : List ControlEdge) (message : String) :
    Of file (ofControl file edges message) := by
  have hedges : Of file (.array (edges.map (ofEdge file))) := of_array (by simp [of_ofEdge])
  refine of_dict ?_
  split_ifs <;> simp [of_string, hedges]

theorem of_ofEvent (depth : Nat) (e : EventPiece) : Of file (ofEvent file depth e) := by
  have hspans : Of file (.array (e.spans.map (ofSpan file))) := of_array (by simp [of_ofSpan])
  refine of_dict ?_
  split_ifs <;> simp [of_string, of_integer, of_ofLocation, hspans]

mutual

theorem of_ofPiece (depth : Nat) (jumps : Bool) (p : PathPiece) :
    ∀ e ∈ ofPiece file depth jumps p, Of file e := by
  cases p with
  | event e => simp [ofPiece, of_ofEvent]
  | control edges message => cases jumps <;> simp [ofPiece, of_ofControl]
  | call site enter within path exit =>
    intro e he
    simp only [ofPiece, mem_append, mem_map] at he
    obtain ((⟨x, -, rfl⟩ | ⟨x, -, rfl⟩) | he) | ⟨x, -, rfl⟩ := he
    · exact of_ofEvent _ x
    · exact of_ofEvent _ x
    · exact of_ofPieces (depth + 1) true path e he
    · exact of_ofEvent _ x
  | expansion l name parts =>
    rw [ofPiece]
    exact of_ofPieces depth false parts

theorem of_ofPieces (depth : Nat) (jumps : Bool) (ps : List PathPiece) :
    ∀ e ∈ ofPieces file depth jumps ps, Of file e := by
  cases ps with
  | nil => simp [ofPieces]
  | cons p rest =>
    intro e he
    rw [ofPieces, mem_append] at he
    obtain he | he := he
    · exact of_ofPiece depth jumps p e he
    · exact of_ofPieces depth jumps rest e he

end

theorem of_ofDiagnostic (d : Diagnostic) : Of file (ofDiagnostic file d) := by
  have hpath : Of file (.array (ofPieces file 0 true d.path)) := of_array (of_ofPieces 0 true d.path)
  refine of_dict ?_
  cases d.context <;> simp [of_string, of_ofLocation, hpath]

theorem entryValues_append (key : String) (xs ys : List (String × Element)) :
    entryValues key (xs ++ ys) = entryValues key xs ++ entryValues key ys := by
  induction xs with
  | nil => rw [entryValues]; rfl
  | cons x xs ih => simp [entryValues, ih]

/-- At least the place of the defect has a number of a file. -/
theorem valuesOf_ofDiagnostic_ne_nil (file : Nat) (d : Diagnostic) :
    (ofDiagnostic file d).valuesOf "file" ≠ [] := by
  simp [ofDiagnostic, valuesOf, entryValues_append, entryValues, ofLocation]

end Element

/-! ### Files -/

theorem nodup_eraseDups (texts : List String) : texts.eraseDups.Nodup := by
  match texts with
  | [] => simp
  | s :: rest =>
    rw [eraseDups_cons, nodup_cons]
    exact ⟨by simp, nodup_eraseDups _⟩
termination_by texts.length
decreasing_by
  rw [length_cons]
  have := length_filter_le (fun b => !b == s) rest
  omega

/-- The number of a file leads to its name. -/
theorem getElem?_fileIndex {names : List String} {name : String} (h : name ∈ names) :
    names[fileIndex names name]? = some name := by
  rw [fileIndex]
  cases hi : names.idxOf? name with
  | none => exact absurd h (idxOf?_eq_none_iff.1 hi)
  | some i =>
    obtain ⟨hlt, heq, -⟩ := idxOf?_eq_some_iff.1 hi
    rw [Option.getD_some, getElem?_eq_getElem hlt]
    exact congrArg some (by simpa using heq)

theorem mem_files {ds : List Diagnostic} {d : Diagnostic} (h : d ∈ ds) : d.file ∈ files ds :=
  mem_eraseDups.2 (mem_map_of_mem h)

/-! ### Documents of diagnostics -/

theorem plain_ofDiagnostics (ds : List Diagnostic) : ∀ t ∈ (Element.ofDiagnostics ds).tags, t.Plain := by
  have hfiles : ∀ t ∈ Element.itemTags ((files ds).map .string), t.Plain := by
    simp only [Element.itemTags_eq, mem_flatMap, mem_map]
    rintro t ⟨_, ⟨s, -, rfl⟩, ht⟩
    exact (Element.of_string s : Element.Of 0 _).plain t ht
  have hall : ∀ t ∈ Element.itemTags (ds.map fun d => Element.ofDiagnostic (fileIndex (files ds) d.file) d),
      t.Plain := by
    simp only [Element.itemTags_eq, mem_flatMap, mem_map]
    rintro t ⟨_, ⟨d, -, rfl⟩, ht⟩
    exact (Element.of_ofDiagnostic d).plain t ht
  intro t ht
  simp only [Element.ofDiagnostics, Element.tags, Element.entryTags, mem_cons, mem_append,
    not_mem_nil, or_false] at ht
  obtain rfl | (rfl | (rfl | ht | rfl) | rfl | rfl | ht | rfl) | rfl := ht
  any_goals simp [Tag.Plain]
  · exact hfiles t ht
  · exact hall t ht

/-- **The tags of a document** are those of its element. -/
theorem ofText?_ofDiagnostics (ds : List Diagnostic) :
    Tag.ofText? (String.join ((ofDiagnostics ds).map (·.text))).toList =
      some (Element.ofDiagnostics ds).tags := by
  rw [← tagsOf_ofDiagnostics]
  refine ofText?_lines fun l hl t ht => plain_ofDiagnostics ds t ?_
  rw [← tagsOf_ofDiagnostics]
  exact mem_flatMap.2 ⟨l, hl, ht⟩

theorem read?_render (ds : List Diagnostic) : read? (render ds) = some (Element.ofDiagnostics ds) :=
  read?_eq (ofText?_ofDiagnostics ds)

theorem text_string (s : String) : (Tag.string s).text = "<string>" ++ escape s ++ "</string>" := by
  rw [Tag.text, element]
  simp only [String.append_assoc]
  rfl

theorem text_string_injective : Function.Injective fun s => (Tag.string s).text := by
  intro s t h
  simp only [text_string] at h
  exact escape_injective (by simpa using h)

/-- **Documents are well formed and faithful.** After its header a document is one element, with balanced tags
and a value for each key; it has an array of the files, each of them once, and an array with an element for
each diagnostic, in which every number of a file is the place of the file of this diagnostic. In a written
text there are no brackets, no quotes and no ampersands but those of the five entities, and with these
replaced it is the text again, so different texts are written in different ways. -/
theorem render_faithful (ds : List Diagnostic) (s : String) :
    (∃ (body : String) (e : Element) (names : List String) (items : List Element),
      render ds = header ++ body ++ "</plist>" ∧ Tag.ofText? body.toList = some e.tags ∧
        read? (render ds) = some e ∧
        e.at? "files" = some (.array (names.map .string)) ∧ names.Nodup ∧
        e.at? "diagnostics" = some (.array items) ∧
        List.Forall₂ (fun item d => item.valuesOf "file" ≠ [] ∧
          ∀ v ∈ item.valuesOf "file", ∃ n, v = .integer n ∧ names[n]? = some d.file) items ds) ∧
    ((Tag.string s).text = "<string>" ++ escape s ++ "</string>" ∧
      (∀ c ∈ ['<', '>', '\'', '"'], c ∉ (escape s).toList) ∧
      (∀ post, '&' :: post <:+ (escape s).toList → ∃ p ∈ entities, p.2 <+: '&' :: post) ∧
      String.ofList (unescape (escape s).toList) = s) ∧
    Function.Injective fun t => (Tag.string t).text := by
  refine ⟨⟨_, Element.ofDiagnostics ds, files ds, _, rfl, ofText?_ofDiagnostics ds, read?_render ds, rfl,
    nodup_eraseDups _, rfl, ?_⟩, ⟨text_string s, fun c hc => notMem_escape hc s, ?_,
    unescape_escape s⟩, text_string_injective⟩
  · rw [forall₂_map_left_iff, forall₂_same]
    intro d hd
    exact ⟨Element.valuesOf_ofDiagnostic_ne_nil _ d,
      fun v hv => ⟨_, (Element.of_ofDiagnostic d).files v hv, getElem?_fileIndex (mem_files hd)⟩⟩
  · intro post hpost
    rw [escape, String.toList_ofList] at hpost
    exact exists_entity_of_suffix hpost

theorem render_faithful_brackets :
    (Tag.string "p->x < 1 && 'a'").text =
      "<string>p-&gt;x &lt; 1 &amp;&amp; &apos;a&apos;</string>" ∧
    ∃ e, read? (render [⟨"a.c", ⟨"B", "C"⟩, "\"x\"", ⟨1, 2⟩, none, []⟩,
        ⟨"b.c", ⟨"B", "C"⟩, "", ⟨3, 4⟩, none, []⟩]) = some e ∧
      ∃ items, e.at? "diagnostics" = some (.array items) ∧ items.length = 2 := by
  obtain ⟨⟨_, e, _, items, -, -, he, -, -, hat, hitems⟩, ⟨htext, -⟩, -⟩ :=
    render_faithful [⟨"a.c", ⟨"B", "C"⟩, "\"x\"", ⟨1, 2⟩, none, []⟩, ⟨"b.c", ⟨"B", "C"⟩, "", ⟨3, 4⟩, none, []⟩]
      "p->x < 1 && 'a'"
  exact ⟨htext.trans (by decide), e, he, items, hat, hitems.length_eq⟩

end Plist

end PathScout
