import JsonnetNav.Ast.Printer
import Mathlib.Data.List.Forall2

/-! # Printed trees can be read back

A line of a printed outline starts with bars and a fork, in blocks of four characters, and what
follows the first fork is the text of a node. The number of bars is the depth of the node, so
the lines give all nodes with their depths, each before those below it, and these give the tree.
No text of a printed syntax tree contains a line break, whatever its strings contain.
-/

namespace JsonnetNav

/-- The text has no line break in it. -/
def OnOneLine (text : String) : Prop :=
  '\n' ∉ text.toList

instance (text : String) : Decidable (OnOneLine text) :=
  inferInstanceAs (Decidable (¬ _))

@[simp] theorem onOneLine_append {s t : String} :
    OnOneLine (s ++ t) ↔ OnOneLine s ∧ OnOneLine t := by
  simp [OnOneLine]

namespace Outline

mutual

/-- The nodes of a tree with their depths, each before those below it. -/
def entries (depth : Nat) : Outline → List (Nat × String)
  | .node text children => (depth, text) :: rowEntries (depth + 1) children

/-- The nodes of trees that stand at one depth. -/
def rowEntries (depth : Nat) : List Outline → List (Nat × String)
  | [] => []
  | tree :: trees => entries depth tree ++ rowEntries depth trees

end

/-- The texts of all nodes, each before those below it. -/
def texts (tree : Outline) : List String :=
  (tree.entries 0).map Prod.snd

/-- No text of a node has a line break in it. -/
def OneLined (tree : Outline) : Prop :=
  ∀ text ∈ tree.texts, OnOneLine text

instance (tree : Outline) : Decidable tree.OneLined :=
  inferInstanceAs (Decidable (∀ text ∈ tree.texts, OnOneLine text))

/-- The lines of a printed text. -/
def printedLines (text : String) : List (List Char) :=
  text.toList.splitOn '\n'

/-! ## Reading a line -/

/-- The number of bars in front of the first fork, and the text behind it. -/
def line? : List Char → Option (Nat × String)
  | '|' :: ' ' :: ' ' :: ' ' :: rest => (line? rest).map fun entry => (entry.1 + 1, entry.2)
  | '.' :: ' ' :: ' ' :: ' ' :: rest => (line? rest).map fun entry => (entry.1 + 1, entry.2)
  | '|' :: '-' :: '-' :: ' ' :: rest => some (0, String.ofList rest)
  | '\x60' :: '-' :: '-' :: ' ' :: rest => some (0, String.ofList rest)
  | _ => none

/-- Below the root a line is in the tree at a depth if it is read as bars up to there. -/
structure Indents (depth : Nat) (indent : String) : Prop where
  reads : ∀ rest, line? (indent.toList ++ rest) =
    (line? rest).map fun entry => (entry.1 + depth, entry.2)
  onOneLine : OnOneLine indent

/-- The line is read as the node at its depth, and has no line break in front of its text. -/
structure Prints (line : String) (entry : Nat × String) : Prop where
  reads : line? line.toList = some entry
  ends : ∃ before, OnOneLine before ∧ line = before ++ entry.2

theorem indents_root : Indents 0 "" := by
  constructor
  · intro rest
    simp
  · decide

theorem Indents.bar {depth : Nat} {indent bar : String} (indents : Indents depth indent)
    (isBar : bar ∈ ["|   ", ".   "]) : Indents (depth + 1) (indent ++ bar) := by
  simp only [List.mem_cons, List.not_mem_nil, or_false] at isBar
  have here (rest : List Char) : line? (bar.toList ++ rest) =
      (line? rest).map fun entry => (entry.1 + 1, entry.2) := by
    rcases isBar with rfl | rfl <;> rfl
  have onOneLine : OnOneLine bar := by
    rcases isBar with rfl | rfl <;> decide
  constructor
  · intro rest
    rw [String.toList_append, List.append_assoc, indents.reads, here, Option.map_map]
    congr 1
    funext entry
    simp only [Function.comp_apply, Prod.mk.injEq, and_true]
    omega
  · exact onOneLine_append.mpr ⟨indents.onOneLine, onOneLine⟩

theorem Indents.fork {depth : Nat} {indent fork : String} (indents : Indents depth indent)
    (isFork : fork ∈ ["|-- ", "`-- "]) (text : String) :
    Prints (indent ++ fork ++ text) (depth, text) := by
  simp only [List.mem_cons, List.not_mem_nil, or_false] at isFork
  constructor
  · have here : line? (fork.toList ++ text.toList) = some (0, text) := by
      rcases isFork with rfl | rfl <;> simp [line?]
    rw [String.toList_append, String.toList_append, List.append_assoc, indents.reads, here]
    simp
  · refine ⟨indent ++ fork, onOneLine_append.mpr ⟨indents.onOneLine, ?_⟩, rfl⟩
    rcases isFork with rfl | rfl <;> decide

mutual

/-- The lines of a tree show its nodes one by one. -/
theorem branch_prints {depth : Nat} {indent fork bar : String} (indents : Indents depth indent)
    (isFork : fork ∈ ["|-- ", "`-- "]) (isBar : bar ∈ ["|   ", ".   "]) (tree : Outline) :
    List.Forall₂ Prints (branch indent fork bar tree) (entries depth tree) := by
  cases tree with
  | node text children =>
      rw [branch, entries]
      exact .cons (indents.fork isFork text) (forest_prints (indents.bar isBar) children)

theorem forest_prints {depth : Nat} {indent : String} (indents : Indents depth indent)
    (trees : List Outline) :
    List.Forall₂ Prints (forest indent trees) (rowEntries depth trees) := by
  match trees with
  | [] => exact .nil
  | [tree] =>
      rw [forest, rowEntries, rowEntries, List.append_nil]
      exact branch_prints indents (by simp) (by simp) tree
  | tree :: next :: trees =>
      rw [forest, rowEntries]
      · exact List.rel_append (branch_prints indents (by simp) (by simp) tree)
          (forest_prints indents (next :: trees))
      · simp

end

/-! ## The lines of a printed outline -/

mutual

theorem snd_entries (depth : Nat) (tree : Outline) :
    (entries depth tree).map Prod.snd = tree.texts := by
  cases tree with
  | node text children =>
      rw [texts, entries, entries, List.map_cons, List.map_cons, snd_rowEntries, snd_rowEntries]

theorem snd_rowEntries (depth : Nat) (trees : List Outline) :
    (rowEntries depth trees).map Prod.snd = trees.flatMap texts := by
  cases trees with
  | nil => rfl
  | cons tree trees =>
      rw [rowEntries, List.map_append, snd_entries, snd_rowEntries, List.flatMap_cons]

end

theorem texts_node (text : String) (children : List Outline) :
    (node text children).texts = text :: children.flatMap texts := by
  rw [texts, entries, List.map_cons, snd_rowEntries]

theorem oneLined_node {text : String} {children : List Outline} :
    (node text children).OneLined ↔ OnOneLine text ∧ ∀ child ∈ children, child.OneLined := by
  simp only [OneLined, texts_node, List.forall_mem_cons, List.mem_flatMap]
  grind

/-- There is a line for every node, and it ends with the text of the node. -/
theorem lines_end (tree : Outline) :
    List.Forall₂ (fun line text => ∃ before, OnOneLine before ∧ line = before ++ text)
      tree.lines tree.texts := by
  cases tree with
  | node text children =>
      rw [lines, texts_node, ← snd_rowEntries 0]
      refine .cons ⟨"", by decide, by simp⟩ ?_
      rw [List.forall₂_map_right_iff]
      exact (forest_prints indents_root children).imp fun _ _ prints => prints.ends

theorem OneLined.onOneLine {tree : Outline} (oneLined : tree.OneLined) :
    ∀ line ∈ tree.lines, OnOneLine line := by
  intro line listed
  obtain ⟨i, bound, rfl⟩ := List.mem_iff_getElem.mp listed
  have ends := tree.lines_end
  obtain ⟨before, broken, same⟩ := ends.get bound (ends.length_eq ▸ bound)
  simp only [List.get_eq_getElem] at same
  rw [same]
  exact onOneLine_append.mpr ⟨broken, oneLined _ (List.getElem_mem _)⟩

theorem lines_ne_nil (tree : Outline) : tree.lines ≠ [] := by
  cases tree
  simp [lines]

/-- Splitting a printed outline at its line breaks gives its lines. -/
theorem OneLined.split_render {tree : Outline} (oneLined : tree.OneLined) :
    printedLines tree.render = tree.lines.map String.toList := by
  rw [printedLines, render, String.toList_intercalate]
  apply List.splitOn_intercalate
  · intro line listed
    obtain ⟨text, member, rfl⟩ := List.mem_map.mp listed
    exact oneLined.onOneLine text member
  · simpa using tree.lines_ne_nil

/-! ## Reading a tree -/

/-- Puts a node in front of the trees after it. Those that stand deeper, up to the first that
    does not, are its children. -/
def adopt (entry : Nat × String) (later : List (Nat × Outline)) : List (Nat × Outline) :=
  (entry.1, .node entry.2 ((later.takeWhile (entry.1 < ·.1)).map Prod.snd)) ::
    later.dropWhile (entry.1 < ·.1)

/-- The outline that is printed like this. -/
def read? (text : String) : Option Outline :=
  match printedLines text with
  | [] => none
  | root :: below => do
    let entries ← below.mapM line?
    return .node (String.ofList root) ((entries.foldr adopt []).map Prod.snd)

mutual

theorem adopt_entries (depth : Nat) (tree : Outline) (later : List (Nat × Outline))
    (shallow : ∀ other ∈ later, other.1 ≤ depth) :
    (entries depth tree).foldr adopt later = (depth, tree) :: later := by
  cases tree with
  | node text children =>
      have below := adopt_rowEntries (depth + 1) children later
        fun other member => Nat.le_succ_of_le (shallow other member)
      rw [entries, List.foldr_cons, below, adopt]
      have deeper : ∀ other ∈ children.map ((depth + 1, ·)), decide (depth < other.1) = true := by
        simp
      have rest : later.takeWhile (depth < ·.1) = [] ∧ later.dropWhile (depth < ·.1) = later := by
        cases later with
        | nil => exact ⟨rfl, rfl⟩
        | cons other later =>
            have outside := shallow other (.head later)
            simp [Nat.not_lt.mpr outside]
      simp only
      rw [List.takeWhile_append_of_pos deeper, List.dropWhile_append_of_pos deeper, rest.1, rest.2]
      simp [Function.comp_def]

theorem adopt_rowEntries (depth : Nat) (trees : List Outline) (later : List (Nat × Outline))
    (shallow : ∀ other ∈ later, other.1 ≤ depth) :
    (rowEntries depth trees).foldr adopt later = trees.map ((depth, ·)) ++ later := by
  cases trees with
  | nil => rfl
  | cons tree trees =>
      rw [rowEntries, List.foldr_append, adopt_rowEntries depth trees later shallow, adopt_entries]
      · rfl
      · intro other member
        rcases List.mem_append.mp member with here | after
        · obtain ⟨_, -, rfl⟩ := List.mem_map.mp here
          exact Nat.le_refl depth
        · exact shallow other after

end

theorem mapM_line {lines : List String} {entries : List (Nat × String)}
    (prints : List.Forall₂ Prints lines entries) :
    (lines.map String.toList).mapM line? = some entries := by
  induction prints with
  | nil => rfl
  | cons here _ ih => simp [here.reads, ih]

/-- A printed outline is read as the outline that was printed. -/
theorem OneLined.read_render {tree : Outline} (oneLined : tree.OneLined) :
    read? tree.render = some tree := by
  rw [read?, oneLined.split_render]
  cases tree with
  | node text children =>
      rw [lines, List.map_cons]
      simp only
      rw [mapM_line (forest_prints indents_root children)]
      simp [adopt_rowEntries 0 children [], Function.comp_def]

theorem OneLined.eq_of_render_eq {tree other : Outline} (oneLined : tree.OneLined)
    (oneLined' : other.OneLined) (same : tree.render = other.render) : tree = other := by
  have read := oneLined.read_render
  rw [same, oneLined'.read_render] at read
  exact (Option.some.inj read).symm

/-- There is one printed line for every node, with the text of the node at its end. -/
def ShowsEach (tree : Outline) : Prop :=
  List.Forall₂ (fun line text => text.toList <:+ line) (printedLines tree.render) tree.texts

theorem OneLined.showsEach {tree : Outline} (oneLined : tree.OneLined) : tree.ShowsEach := by
  rw [ShowsEach, oneLined.split_render, List.forall₂_map_left_iff]
  apply tree.lines_end.imp
  rintro line text ⟨before, -, rfl⟩
  exact ⟨before.toList, String.toList_append.symm⟩

end Outline

/-! ## The texts of values and ranges -/

theorem onOneLine_ofList {cs : List Char} : OnOneLine (String.ofList cs) ↔ '\n' ∉ cs := by
  rw [OnOneLine, String.toList_ofList]

theorem onOneLine_join {texts : List String} (all : ∀ text ∈ texts, OnOneLine text) :
    OnOneLine (String.join texts) := by
  simpa [OnOneLine, String.toList_join] using all

theorem digit_of_mem_toDigits {base n : Nat} (valid : 1 < base) {c : Char}
    (member : c ∈ base.toDigits n) : ∃ k < base, c = k.digitChar := by
  induction n using Nat.strongRecOn with
  | ind n ih =>
      by_cases small : n < base
      · rw [Nat.toDigits_of_lt_base small, List.mem_singleton] at member
        exact ⟨n, small, member⟩
      · have large : base ≤ n := Nat.le_of_not_lt small
        rw [Nat.toDigits_of_base_le valid large, List.mem_append, List.mem_singleton] at member
        rcases member with before | last
        · exact ih (n / base) (Nat.div_lt_self (by omega) valid) before
        · exact ⟨n % base, Nat.mod_lt n (by omega), last⟩

theorem newline_notMem_toDigits (n : Nat) : '\n' ∉ Nat.toDigits 10 n := by
  intro member
  have digit := Nat.isDigit_of_mem_toDigits (by decide) (by decide) member
  exact absurd digit (by decide)

theorem onOneLine_nat (n : Nat) : OnOneLine (toString n) := by
  change '\n' ∉ n.repr.toList
  rw [Nat.toList_repr]
  exact newline_notMem_toDigits n

theorem onOneLine_int (i : Int) : OnOneLine (toString i) := by
  cases i with
  | ofNat n => exact onOneLine_nat n
  | negSucc n => exact onOneLine_append.mpr ⟨by decide, onOneLine_nat (n + 1)⟩

namespace CodePoint

theorem onOneLine_hex (p : CodePoint) : OnOneLine p.hex := by
  have digits : '\n' ∉ (Nat.toDigits 16 p.val).map Char.toUpper := by
    intro member
    obtain ⟨c, listed, upper⟩ := List.mem_map.mp member
    obtain ⟨k, small, rfl⟩ := digit_of_mem_toDigits (by decide) listed
    have other : ∀ k < 16, k.digitChar.toUpper ≠ '\n' := by decide
    exact other k small upper
  rw [hex, onOneLine_ofList, List.mem_append, List.mem_replicate, not_or]
  exact ⟨fun zero => absurd zero.2 (by decide), digits⟩

theorem eq_of_ofNat_eq {n : Nat} (same : Char.ofNat n = '\n') : n = 0x0A := by
  by_cases valid : n.isValidChar
  · have code : (Char.ofNat n).toNat = n := by
      rw [Char.ofNat, dif_pos valid]
      rfl
    rw [← code, same]
    rfl
  · rw [Char.ofNat, dif_neg valid] at same
    exact absurd same (by decide)

theorem onOneLine_display {p : CodePoint} (other : p.val ≠ 0x0A) : OnOneLine p.display := by
  unfold display
  split
  · exact onOneLine_append.mpr ⟨onOneLine_append.mpr ⟨by decide, p.onOneLine_hex⟩, by decide⟩
  · intro member
    rw [String.toList_singleton, List.mem_singleton] at member
    exact other (eq_of_ofNat_eq member.symm)

theorem onOneLine_quoted (p : CodePoint) : OnOneLine p.quoted := by
  unfold quoted
  split
  · decide
  · rename_i other
    repeat' split
    · decide
    · decide
    · decide
    · exact onOneLine_display other

end CodePoint

theorem Text.onOneLine_quoted (t : Text) (stop : Index) : OnOneLine (t.quoted stop) := by
  have shown : OnOneLine (String.join ((t.take (stop.countBefore t)).map CodePoint.quoted)) := by
    apply onOneLine_join
    intro text listed
    obtain ⟨p, -, rfl⟩ := List.mem_map.mp listed
    exact p.onOneLine_quoted
  have quote : OnOneLine "\"" := by decide
  simp only [quoted, onOneLine_append, shown, quote, true_and, and_true]
  split
  · decide
  · simp only [onOneLine_append, onOneLine_int, and_true]
    decide

namespace Number

/-- The characters that numbers are written with. -/
def isNumeral (c : Char) : Bool :=
  c.isDigit || c ∈ ['.', 'e', '+', '-']

theorem isNumeral_toDigits {n : Nat} {c : Char} (member : c ∈ Nat.toDigits 10 n) :
    isNumeral c = true := by
  simp [isNumeral, Nat.isDigit_of_mem_toDigits (by decide) (by decide) member]

theorem isNumeral_replicate {n : Nat} {c : Char} (member : c ∈ List.replicate n '0') :
    isNumeral c = true := by
  rw [(List.mem_replicate.mp member).2]
  decide

theorem isNumeral_shortest {mantissa : Nat} {exponent : Int} {c : Char}
    (member : c ∈ (shortest mantissa exponent).1) : isNumeral c = true := by
  simp only [shortest, List.mem_reverse] at member
  have listed := (List.dropWhile_sublist _).mem member
  exact isNumeral_toDigits (List.mem_reverse.mp listed)

theorem isNumeral_positional {digits : List Char} {position : Int}
    (all : ∀ c ∈ digits, isNumeral c = true) :
    ∀ c ∈ positional digits position, isNumeral c = true := by
  unfold positional
  split
  · simp only [List.forall_mem_append]
    exact ⟨⟨List.all_eq_true.mp (by decide), fun c => isNumeral_replicate⟩, all⟩
  · simp only [List.forall_mem_append, List.forall_mem_cons]
    refine ⟨⟨fun c member => all c (List.mem_of_mem_take member), fun c => isNumeral_replicate⟩,
      by decide, ?_⟩
    split
    · exact List.all_eq_true.mp (by decide)
    · exact fun c member => all c (List.mem_of_mem_drop member)

theorem isNumeral_scientific {digits : List Char} {position : Int}
    (all : ∀ c ∈ digits, isNumeral c = true) :
    ∀ c ∈ scientific digits position, isNumeral c = true := by
  simp only [scientific, List.forall_mem_append]
  refine ⟨⟨⟨?_, ?_⟩, fun c => isNumeral_replicate⟩, fun c => isNumeral_toDigits⟩
  · split
    · simp only [List.forall_mem_cons] at all ⊢
      exact ⟨all.1, by decide, all.2⟩
    · exact all
  · split <;> exact List.all_eq_true.mp (by decide)

theorem onOneLine_toText (n : Binary64) : OnOneLine (toText n) := by
  have unbroken {cs : List Char} (all : ∀ c ∈ cs, isNumeral c = true) :
      OnOneLine (String.ofList cs) :=
    onOneLine_ofList.mpr fun member => absurd (all _ member) (by decide)
  cases n with
  | nan => decide
  | infinite negative => cases negative <;> decide
  | finite negative mantissa exponent =>
      have body : ∀ c ∈ (if mantissa = 0 then ['0', '.', '0']
          else if -4 < (shortest mantissa exponent).2 ∧ (shortest mantissa exponent).2 ≤ 16 then
            positional (shortest mantissa exponent).1 (shortest mantissa exponent).2
          else scientific (shortest mantissa exponent).1 (shortest mantissa exponent).2),
          isNumeral c = true := by
        split
        · exact List.all_eq_true.mp (by decide)
        · split
          · exact isNumeral_positional fun c => isNumeral_shortest
          · exact isNumeral_scientific fun c => isNumeral_shortest
      apply unbroken
      split
      · exact List.forall_mem_cons.mpr ⟨by decide, body⟩
      · exact body

end Number

theorem Leaf.onOneLine_render (value : Leaf) : OnOneLine value.render := by
  cases value with
  | text t => exact t.onOneLine_quoted 50
  | number n => exact Number.onOneLine_toText n
  | flag b => cases b <;> decide
  | visibility v => exact Text.onOneLine_quoted _ 50

theorem Range.onOneLine_render (r : Range) : OnOneLine r.render := by
  have position (p : Position) : OnOneLine p.render := by
    simp only [Position.render, onOneLine_append, onOneLine_nat, true_and, and_true]
    decide
  simp only [render, onOneLine_append, position, true_and, and_true]
  decide

/-! ## The texts of a syntax tree -/

theorem Kind.onOneLine_name (k : Kind) : OnOneLine k.name := by
  cases k <;> decide

theorem Role.onOneLine_label (r : Role) : OnOneLine r.label := by
  cases r <;> decide

theorem Outline.onOneLine_labelled {label : Option String} {text : String}
    (ofLabel : ∀ l ∈ label, OnOneLine l) (ofText : OnOneLine text) :
    OnOneLine (labelled label text) := by
  cases label with
  | none => exact ofText
  | some l =>
      simp only [labelled, onOneLine_append]
      exact ⟨⟨ofLabel l rfl, by decide⟩, ofText⟩

namespace Part

/-- What a part of a node is printed as. -/
def outlines (uri : Uri) : Part → List Outline
  | leaf name value => [.node (Outline.labelled (some name) value.render) []]
  | child role m => [m.outline uri (some role.label)]
  | children _ [] => []
  | children role (m :: ms) =>
    [.node (Outline.labelled (some role.label) "[...]")
      ((m :: ms).mapIdx fun i x => x.outline uri (some s!"[{i}]"))]

/-- The names of the values in nodes. -/
def valueNames : List String :=
  ["name", "value", "op", "type", "node_type", "visibility", "inherited"]

/-- A value goes by one of the names of values. -/
def WellNamed : Part → Prop
  | leaf name _ => name ∈ valueNames
  | _ => True

theorem onOneLine_valueNames : ∀ name ∈ valueNames, OnOneLine name := by
  decide

end Part

namespace Node

theorem wellNamed_expr (e : Expr) : ∀ p ∈ e.parts, p.WellNamed := by
  cases e with
  | slice range array start stop step =>
      cases stop <;> cases step <;> simp [Expr.parts, Part.ofOption, Part.WellNamed]
  | cond range condition consequence alternative =>
      cases alternative <;> simp [Expr.parts, Part.ofOption, Part.WellNamed]
  | _ => simp [Expr.parts, Part.ofString, Part.WellNamed, Part.valueNames]

theorem wellNamed_parts (n : Node) : ∀ p ∈ n.parts, p.WellNamed := by
  cases n with
  | expr e => exact wellNamed_expr e
  | param p => cases given : p.default <;> simp [parts, Part.ofOption, given, Part.WellNamed]
  | arg a => cases given : a.name <;> simp [parts, Part.ofOption, given, Part.WellNamed]
  | assertion a => cases given : a.message <;> simp [parts, Part.ofOption, given, Part.WellNamed]
  | key k => cases k <;> simp [parts, Part.WellNamed]
  | _ => simp [parts, Part.WellNamed, Part.valueNames]

theorem outline_eq (uri : Uri) (label : Option String) (n : Node) :
    n.outline uri label =
      .node (Outline.labelled label (n.heading uri)) (n.parts.flatMap (Part.outlines uri)) := by
  have each : n.parts.flatMap (Part.outlines uri) =
      n.parts.attach.flatMap fun p => p.1.outlines uri := by
    rw [List.flatMap_subtype (g := Part.outlines uri) (fun _ _ => rfl), List.unattach_attach]
  rw [outline, each]
  congr 2
  funext p
  obtain ⟨p, isPart⟩ := p
  cases p with
  | leaf name value => rfl
  | child role m => rfl
  | children role ms =>
      cases ms with
      | nil => rfl
      | cons m ms =>
          simp only [Part.outlines]
          congr 2
          apply List.ext_getElem
          · simp
          · intro i bound bound'
            rw [List.getElem_mapIdx, List.getElem_mapIdx, List.getElem_attach]

theorem onOneLine_heading {uri : Uri} (unbroken : OnOneLine uri) (n : Node) :
    OnOneLine (n.heading uri) := by
  have place : OnOneLine
      (if n.kind = .document then (Location.mk uri n.range).render else n.range.render) := by
    split
    · simp only [Location.render, onOneLine_append, unbroken, Range.onOneLine_render, and_true]
      decide
    · exact n.range.onOneLine_render
  simp only [heading, onOneLine_append, place, Kind.onOneLine_name, true_and, and_true]
  decide

/-- No text of a printed node has a line break in it. -/
theorem oneLined_outline {uri : Uri} (unbroken : OnOneLine uri) {label : Option String}
    (ofLabel : ∀ l ∈ label, OnOneLine l) (n : Node) : (n.outline uri label).OneLined := by
  rw [outline_eq, Outline.oneLined_node]
  refine ⟨Outline.onOneLine_labelled ofLabel (onOneLine_heading unbroken n), ?_⟩
  intro tree listed
  obtain ⟨p, isPart, printed⟩ := List.mem_flatMap.mp listed
  have below : ∀ m ∈ p.nodes, sizeOf m < sizeOf n := childrenBelow_parts n p isPart
  cases p with
  | leaf name value =>
      cases List.mem_singleton.mp printed
      have named := Part.onOneLine_valueNames name (wellNamed_parts n _ isPart)
      exact Outline.oneLined_node.mpr
        ⟨Outline.onOneLine_labelled (by simpa using named) value.onOneLine_render, by simp⟩
  | child role m =>
      cases List.mem_singleton.mp printed
      have smaller := below m (.head [])
      exact oneLined_outline unbroken (by simpa using role.onOneLine_label) m
  | children role ms =>
      cases ms with
      | nil => cases printed
      | cons m ms =>
          cases List.mem_singleton.mp printed
          refine Outline.oneLined_node.mpr
            ⟨Outline.onOneLine_labelled (by simpa using role.onOneLine_label) (by decide), ?_⟩
          intro row inside
          obtain ⟨i, bound, rfl⟩ := List.mem_mapIdx.mp inside
          have smaller := below _ (List.getElem_mem bound)
          apply oneLined_outline unbroken
          simp only [Option.mem_some_iff, forall_eq', onOneLine_append, onOneLine_nat, and_true]
          decide
termination_by sizeOf n

/-- A printed outline has one line for each node and is read back as it was, so outlines that are
    printed alike are the same. A printed syntax tree is such an outline: it has one line for
    everything that is shown, and trees that are printed alike show the same. -/
theorem render_reads_back :
    (∀ tree : Outline, tree.OneLined →
      tree.ShowsEach ∧ Outline.read? tree.render = some tree) ∧
    (∀ tree other : Outline, tree.OneLined → other.OneLined →
      tree.render = other.render → tree = other) ∧
    (∀ (uri : Uri) (n : Node), OnOneLine uri →
      (n.outline uri none).OneLined ∧ (n.outline uri none).ShowsEach) ∧
    ∀ (uri uri' : Uri) (n n' : Node), OnOneLine uri → OnOneLine uri' →
      n.render uri = n'.render uri' → n.outline uri none = n'.outline uri' none := by
  have oneLined {uri : Uri} (unbroken : OnOneLine uri) (n : Node) :
      (n.outline uri none).OneLined := oneLined_outline unbroken (by simp) n
  refine ⟨?_, ?_, ?_, ?_⟩
  · intro tree alone
    exact ⟨alone.showsEach, alone.read_render⟩
  · intro tree other alone alone' same
    exact alone.eq_of_render_eq alone' same
  · intro uri n unbroken
    exact ⟨oneLined unbroken n, (oneLined unbroken n).showsEach⟩
  · intro uri uri' n n' unbroken unbroken' same
    exact (oneLined unbroken n).eq_of_render_eq (oneLined unbroken' n') same

/-- Texts that look like forks and bars. -/
def forkedOutline : Outline :=
  .node "|-- a" [.node "`-- b" [.node "" []], .node ".   |-- c" []]

/-- Line breaks, and a last character that is cut off. -/
def longString (last : Char) : Node :=
  let text := String.ofList (List.replicate 50 '\n' ++ [last])
  .expr (.str (Range.ofNats 0 0 0 52) (Text.ofString text))

theorem forked_reads_back :
    (forkedOutline.OneLined ∧ Outline.read? forkedOutline.render = some forkedOutline ∧
      (Outline.printedLines forkedOutline.render).length = 4) ∧
    (OnOneLine "file:///x" ∧ ((longString 'a').outline "file:///x" none).OneLined ∧
      (Outline.printedLines ((longString 'a').render "file:///x")).length = 2) ∧
    (longString 'a').render "file:///x" = (longString 'b').render "file:///y" ∧
    (longString 'a').outline "file:///x" none = (longString 'b').outline "file:///y" none := by
  have oneLined : forkedOutline.OneLined := by decide +kernel
  obtain ⟨forked, -, printed, alike⟩ := render_reads_back
  obtain ⟨shown, read⟩ := forked forkedOutline oneLined
  obtain ⟨oneLined', shown'⟩ := printed "file:///x" (longString 'a') (by decide)
  have same : (longString 'a').render "file:///x" = (longString 'b').render "file:///y" := by
    decide +kernel
  refine ⟨⟨oneLined, read, ?_⟩, ⟨by decide, oneLined', ?_⟩, same, ?_⟩
  · rw [shown.length_eq]
    rfl
  · rw [render, shown'.length_eq]
    decide +kernel
  · exact alike _ _ _ _ (by decide) (by decide) same

end Node

end JsonnetNav
