import Mathlib.Data.List.Pairwise
import Mathlib.Data.List.TakeWhile
import ScriptAnalysis.Proofs.Ast.Preorder
import ScriptAnalysis.Proofs.Syntax.Written

/-!
# Where ascriptions start

The file's tree does not keep the colon in front of a type, so the common tree looks for it in the text, from
the type back over blank characters. One colon introduces the type of an ascription (`Tree.Introduces`), and
only opening parentheses, comments and layout stand between the two. The ascription starts at its colon where
the characters between are blank, and nowhere else (`Conversion.ascribes_parse`): a parenthesis, a comment or
U+FEFF, which is layout but not blank, hides the colon.
-/

namespace ScriptAnalysis

open Text

namespace Syntax

variable {source : List Char} {lo hi offset : Nat}

/-- A colon introduces a type: of the tokens only opening parentheses stand between them. -/
structure Tree.Introduces (tree : Tree) (colon : Token) (type : Node Place) : Prop where
  /-- It is a token of the text. -/
  mem : colon ∈ tree.stream.tokens
  /-- It is a colon. -/
  kind : colon.kind = .colon
  /-- It stands in front of the type. -/
  stop_le : colon.span.stop ≤ type.span.start
  /-- What stands between are opening parentheses. -/
  between : ∀ t ∈ tree.stream.tokens, colon.span.stop ≤ t.span.start → t.span.start < type.span.start →
    t.kind = .leftParen

instance (tree : Tree) (colon : Token) (type : Node Place) : Decidable (tree.Introduces colon type) :=
  decidable_of_iff (colon ∈ tree.stream.tokens ∧ colon.kind = .colon ∧ colon.span.stop ≤ type.span.start ∧
    ∀ t ∈ tree.stream.tokens, colon.span.stop ≤ t.span.start → t.span.start < type.span.start →
      t.kind = .leftParen)
    ⟨fun ⟨hmem, hkind, hle, hbetween⟩ => ⟨hmem, hkind, hle, hbetween⟩, fun h => ⟨h.mem, h.kind, h.stop_le, h.between⟩⟩

/-- The characters between a colon and a type. -/
def Tree.gap (tree : Tree) (colon : Token) (type : Node Place) : List Char :=
  ((Span.mk colon.span.stop type.span.start).textIn tree.text.toList).toList

/-! ### The colon of a type -/

/-- The type of a node that is arranged in the text is introduced inside the node. -/
theorem Kind.Arranged.introduced {k : Kind (Ident Span) (Node Span)} (h : k.Arranged source lo hi)
    {type : Node Span} (htype : k.annotation? = some type) : Introduced source lo type.label.start := by
  have hjoin : ∀ {ns : List (Node Span)} {a b : Nat}, Node.Row lo ns a →
      Node.Annotates source a (some type) b → Introduced source lo type.label.start :=
    fun hrow htype => (htype.2 type rfl).of_le hrow.le
  cases k <;> cases htype
  case variableDeclaration | parameter | functionDeclaration | arrowFunction =>
    obtain ⟨a, b, hrow, htype, -⟩ := h
    exact hjoin hrow htype

/-- Tokens of a text of which none stands before the other are the same. -/
theorem Tree.token_eq_of_le {fileName text : String} {t u : Token} (ht : t ∈ (parse fileName text).stream.tokens)
    (hu : u ∈ (parse fileName text).stream.tokens) (htu : ¬t.span.stop ≤ u.span.start)
    (hut : ¬u.span.stop ≤ t.span.start) : t = u := by
  by_contra hne
  have hpairs : (parse fileName text).stream.tokens.Pairwise
      fun t u => t.span.stop ≤ u.span.start ∨ u.span.stop ≤ t.span.start :=
    (pairwise_tokens_parse fileName text).imp fun h => .inl h.2
  have : Std.Symm fun t u : Token => t.span.stop ≤ u.span.start ∨ u.span.stop ≤ t.span.start := ⟨fun _ _ => Or.symm⟩
  exact (hpairs.forall ht hu hne).elim htu hut

/-- One colon introduces a type. -/
theorem Tree.Introduces.eq {fileName text : String} {colon other : Token} {type : Node Place}
    (h : (parse fileName text).Introduces colon type) (h' : (parse fileName text).Introduces other type) :
    colon = other := by
  have hlt : ∀ {t : Token}, t ∈ (parse fileName text).stream.tokens → t.span.start < t.span.stop :=
    fun ht => (TokenStream.coversIn_ofChars text.toList _ ht).lt
  -- a colon behind the other one stands between it and the type, and is no parenthesis
  have hno : ∀ {t u : Token}, (parse fileName text).Introduces t type → (parse fileName text).Introduces u type →
      ¬t.span.stop ≤ u.span.start := by
    intro t u ht hu hle
    have hparen := ht.between u hu.mem hle (Nat.lt_of_lt_of_le (hlt hu.mem) hu.stop_le)
    rw [hu.kind] at hparen
    cases hparen
  exact token_eq_of_le h.mem h'.mem (hno h h') (hno h' h)

/-- Where a type is introduced the text divides into what stands before the colon, what stands between both,
and the rest from the type on. -/
theorem Introduced.exists_split (h : Introduced source lo offset) :
    ∃ colon ∈ (TokenStream.ofChars source).tokens, colon.kind = .colon ∧ lo ≤ colon.span.start ∧
      (∀ t ∈ (TokenStream.ofChars source).tokens, colon.span.stop ≤ t.span.start → t.span.start < offset →
        t.kind = .leftParen) ∧
      ∃ front gap back, source = front ++ ':' :: (gap ++ back) ∧
        colon.span = ⟨byteLength front, byteLength front + 1⟩ ∧
        offset = byteLength front + 1 + byteLength gap := by
  obtain ⟨before, colon, parens, first, after, htokens, hkind, hlo, hparens, rfl⟩ := h
  have hcolon : colon ∈ (TokenStream.ofChars source).tokens := by simp [htokens]
  have hfirst : first ∈ (TokenStream.ofChars source).tokens := by simp [htokens]
  have hlt := fun t ht => (TokenStream.coversIn_ofChars source t ht).lt
  have hpairs : (TokenStream.ofChars source).tokens.Pairwise (·.span.stop ≤ ·.span.start) :=
    (TokenStream.pairwise_all_ofChars source).sublist (List.sublist_append_left ..)
  rw [htokens, List.pairwise_append, List.pairwise_cons, List.pairwise_append, List.pairwise_cons] at hpairs
  obtain ⟨-, ⟨hbehind, -, ⟨hlast, -⟩, -⟩, hbefore⟩ := hpairs
  have hle : colon.span.stop ≤ first.span.start := hbehind first (by simp)
  refine ⟨colon, hcolon, hkind, hlo, fun t ht hstop hstart => ?_, ?_⟩
  · have hpos := hlt t ht
    have hcolonPos := hlt colon hcolon
    have hfirstPos := hlt first hfirst
    rw [htokens] at ht
    rcases List.mem_append.mp ht with ht | ht
    · have := hbefore t ht colon List.mem_cons_self
      omega
    · rcases List.mem_cons.mp ht with rfl | ht
      · omega
      · rcases List.mem_append.mp ht with ht | ht
        · exact hparens t ht
        · rcases List.mem_cons.mp ht with rfl | ht
          · omega
          · have := hlast t ht
            omega
  · have hspelling : colon.kind.spelling? = some ":" := by rw [hkind]; rfl
    obtain ⟨front, back, hsource, hspan⟩ := exists_place_of_mem_tokens hcolon hspelling
    obtain ⟨front', back', hsource', hstart, -⟩ := TokenStream.exists_split_of_mem_tokens hfirst
    have hboth : (front ++ [':']) ++ back = front' ++ (first.text.toList ++ back') := by
      rw [← List.append_assoc front', ← hsource']
      exact hsource.symm
    rw [hspan, hstart] at hle
    obtain ⟨gap, rfl⟩ := exists_middle hboth (byteLength_append front [':'] ▸ hle)
    refine ⟨front, gap, first.text.toList ++ back', ?_, hspan, ?_⟩
    · rw [hsource', List.append_assoc, List.append_assoc, List.append_assoc]
      rfl
    · rw [hstart, byteLength_append, byteLength_append]
      rfl

end Syntax

namespace Ast

variable {source front gap back : List Char} {x : Node Origin}

/-! ### Looking back for the colon -/

theorem trimEnd_eq_nil_iff {cs : List Char} : trimEnd cs = [] ↔ ∀ c ∈ cs, isBlank c = true := by
  rw [trimEnd, List.reverse_eq_nil_iff, List.dropWhile_eq_nil_iff]
  simp only [List.mem_reverse]

/-- Where an ascription starts whose colon stands at an offset in front of some characters and the type: at the
colon if the characters are blank, else at the type, or at the end of a comment that ends with a colon. -/
def startBehind (colon : Nat) (gap : List Char) : Nat :=
  if trimEnd gap = [] then colon
  else if (trimEnd gap).getLast? = some ':' then colon + byteLength (trimEnd gap)
  else colon + 1 + byteLength gap

/-- What is not blank between a colon and a type hides the colon. -/
theorem startBehind_eq_iff {colon : Nat} : startBehind colon gap = colon ↔ ∀ c ∈ gap, isBlank c = true := by
  rw [startBehind, ← trimEnd_eq_nil_iff]
  cases trimEnd gap with
  | nil => simp
  | cons c cs =>
    have hpos := c.utf8Size_pos
    rw [if_neg (List.cons_ne_nil c cs), byteLength_cons]
    refine iff_of_false ?_ (List.cons_ne_nil c cs)
    split <;> omega

theorem ascriptionStart_append :
    ascriptionStart (front ++ ':' :: (gap ++ back)) (byteLength front + 1 + byteLength gap) =
      startBehind (byteLength front) gap := by
  have hsource : front ++ ':' :: (gap ++ back) = (front ++ ':' :: gap) ++ back := by simp
  have hlength : byteLength front + 1 + byteLength gap = byteLength (front ++ ':' :: gap) + 0 := by
    rw [byteLength_append, Nat.add_assoc]
    rfl
  have htake : takeBytes (byteLength front + 1 + byteLength gap) (front ++ ':' :: (gap ++ back)) =
      some (front ++ ':' :: gap) := by
    rw [hsource, hlength, takeBytes_append, takeBytes_zero, Option.map_some, List.append_nil]
  have htrim : trimEnd (front ++ ':' :: gap) = front ++ ':' :: trimEnd gap := trimEnd_append_cons (by decide)
  have hcolon : byteLength (front ++ ':' :: trimEnd gap) = byteLength front + 1 + byteLength (trimEnd gap) := by
    rw [byteLength_append, Nat.add_assoc]
    rfl
  rw [ascriptionStart, htake, startBehind]
  simp only [htrim, hcolon]
  cases htrimmed : trimEnd gap with
  | nil => simp
  | cons c cs =>
    have hlast : (front ++ ':' :: c :: cs).getLast? = (c :: cs).getLast? := by
      simp [List.getLast?_cons]
    rw [hlast, if_neg (List.cons_ne_nil c cs)]
    split
    · omega
    · rfl

/-! ### Where it stands -/

/-- The ascription stands around a type of the file, and one colon introduces the type. -/
structure Node.Ascribes (tree : Syntax.Tree) (colon : ScriptAnalysis.Token) (type : Syntax.Node Syntax.Place)
    (a : Node Place) : Prop where
  /-- It comes from the type. -/
  origin : a.origin = type.id
  /-- The colon introduces the type. -/
  introduces : tree.Introduces colon type
  /-- No other colon does. -/
  unique : ∀ other, tree.Introduces other type → other = colon
  /-- It starts where the characters between colon and type say. -/
  start : a.location.range.start = startBehind colon.span.start (tree.gap colon type)
  /-- So it starts with the colon where all characters between are blank, and nowhere else. -/
  start_eq_iff : a.location.range.start = colon.span.start ↔ ∀ c ∈ tree.gap colon type, isBlank c = true
  /-- It stops with the type. -/
  stop : a.location.range.stop = type.span.stop

namespace Conversion

variable {fileName text : String} {settings : Settings} {conversion : Conversion}

/-- Every ascription of the common tree comes from a type of the file and stands where it says. -/
theorem exists_annotation (h : ofTree (.parse fileName text) settings = .ok conversion)
    (hranges : settings.ranges = true) {a : Node Place} (ha : a ∈ conversion.tree.root.nodes)
    (hascription : a.kind.isAscription = true) :
    ∃ n ∈ (Syntax.Tree.parse fileName text).root.nodes, ∃ type, n.kind.annotation? = some type ∧
      a.origin = type.id ∧
      a.location.range = ⟨ascriptionStart text.toList type.span.start, type.span.stop⟩ := by
  have hmap : conversion.tree.root.map (fun l : Place => (l.origin, l.location.range)) =
      (program (.parse fileName text)).map fun o => (o.node, o.span) :=
    map_root h fun id o => by rw [Settings.locate, if_pos hranges]
  have hmem := List.mem_map_of_mem (f := Node.map fun l : Place => (l.origin, l.location.range)) ha
  rw [← Node.nodes_map, hmap, Node.nodes_map] at hmem
  obtain ⟨x, hx, hxa⟩ := List.mem_map.mp hmem
  have hxascription : x.kind.isAscription = true := by
    rw [← Node.isAscription_map (fun o : Origin => (o.node, o.span)), hxa, Node.isAscription_map, hascription]
  have hlabel : (x.label.node, x.label.span) = (a.label.origin, a.label.location.range) := by
    rw [← Node.label_map (fun o : Origin => (o.node, o.span)), hxa, Node.label_map]
  -- the program is no ascription, so the type is in one of the statements
  rcases Node.mem_nodes_iff.mp hx with hx | rfl
  · obtain ⟨c, hc, hx⟩ := Node.mem_inner_iff.mp hx
    rw [children_program] at hc
    obtain ⟨s, hs, rfl⟩ := List.mem_map.mp hc
    obtain ⟨n, hn, type, htype, hconvert⟩ := exists_annotation_of_mem_nodes hx hxascription
    rw [← Syntax.Tree.children_root_parse] at hs
    refine ⟨n, Syntax.Node.nodes_subset_of_mem_children hs hn, type, htype, ?_⟩
    rw [convertAscription_some] at hconvert
    cases hconvert
    exact ⟨(congrArg Prod.fst hlabel).symm, (congrArg Prod.snd hlabel).symm⟩
  · cases hxascription

/-- An ascription around an introduced type. -/
theorem ascribes (herrors : (Syntax.Tree.parse fileName text).errors = [])
    (h : ofTree (.parse fileName text) settings = .ok conversion) (hranges : settings.ranges = true)
    {a : Node Place} (ha : a ∈ conversion.tree.root.nodes) (hascription : a.kind.isAscription = true) :
    ∃ n ∈ (Syntax.Tree.parse fileName text).root.nodes, ∃ type, n.kind.annotation? = some type ∧
      ∃ colon, n.span.start ≤ colon.span.start ∧ a.Ascribes (.parse fileName text) colon type := by
  obtain ⟨n, hn, type, htype, horigin, hrange⟩ := exists_annotation h hranges ha hascription
  have hfile : n.kind.fits .file = false := by
    cases hkind : n.kind <;> rw [hkind] at htype <;> cases htype <;> rfl
  have hproper := Syntax.Tree.proper_of_mem_nodes herrors hn hfile
  have harranged := hproper.arranged
  rw [Syntax.Node.kind_map, Syntax.Node.label_map] at harranged
  have hspan : (n.kind.map (Syntax.Ident.map Syntax.Place.span) (Syntax.Node.map Syntax.Place.span)).annotation? =
      some (type.map Syntax.Place.span) := by
    cases hkind : n.kind <;> rw [hkind] at htype <;> cases htype <;> rfl
  have hintroduced := harranged.introduced hspan
  rw [Syntax.Node.label_map] at hintroduced
  obtain ⟨colon, hmem, hkind, hlo, hbetween, front, gap, back, hsource, hplace, hoffset⟩ := hintroduced.exists_split
  have hoffset : type.span.start = byteLength front + 1 + byteLength gap := hoffset
  have hsource : text.toList = front ++ ':' :: (gap ++ back) := hsource
  have hintroduces : (Syntax.Tree.parse fileName text).Introduces colon type :=
    ⟨hmem, hkind, by rw [hplace, hoffset]; exact Nat.le_add_right .., hbetween⟩
  have hgap : (Syntax.Tree.parse fileName text).gap colon type = gap := by
    have hslice := slice_append_append (front ++ [':']) gap back
    rw [byteLength_append, List.append_assoc, List.append_assoc, List.singleton_append, ← hsource] at hslice
    rw [Syntax.Tree.gap, hplace, hoffset, Span.textIn]
    exact (String.toList_ofList ..).trans (congrArg (Option.getD · []) hslice)
  rw [hsource, hoffset, ascriptionStart_append] at hrange
  refine ⟨n, hn, type, htype, colon, hlo, horigin, hintroduces, fun _ h => h.eq hintroduces, ?_, ?_, ?_⟩
  · rw [hgap, hplace, hrange]
  · rw [hgap, hplace, hrange]
    exact startBehind_eq_iff
  · rw [hrange]

/-- Every ascription starts at its colon. -/
def StartAtColons (tree : Syntax.Tree) (conversion : Conversion) : Prop :=
  ∀ a ∈ conversion.tree.root.nodes, a.kind.isAscription = true →
    ∀ type ∈ tree.root.nodes, a.origin = type.id → ∀ colon ∈ tree.stream.tokens, tree.Introduces colon type →
      a.location.range.start = colon.span.start

instance (tree : Syntax.Tree) (conversion : Conversion) : Decidable (conversion.StartAtColons tree) :=
  inferInstanceAs (Decidable (∀ _ ∈ _, _ → _))

end Conversion

/-- **Where ascriptions start.** A file without errors has a common tree, and with offsets asked for every
ascription in it stands around a type that one colon of the file introduces. It starts at this colon where only
blank characters stand between the colon and the type, and behind it where there is anything else. -/
theorem Conversion.ascribes_parse (fileName text : String) (settings : Settings)
    (herrors : (Syntax.Tree.parse fileName text).errors = []) (hranges : settings.ranges = true) :
    ∃ conversion, ofTree (.parse fileName text) settings = .ok conversion ∧
      ∀ a ∈ conversion.tree.root.nodes, a.kind.isAscription = true →
        ∃ n ∈ (Syntax.Tree.parse fileName text).root.nodes, ∃ type, n.kind.annotation? = some type ∧
          ∃ colon, n.span.start ≤ colon.span.start ∧ a.Ascribes (.parse fileName text) colon type := by
  obtain ⟨conversion, h⟩ := exists_ofTree herrors settings
  exact ⟨conversion, h, fun _ ha hascription => ascribes herrors h hranges ha hascription⟩

/-- A parameter and a result, with a parenthesis and a comment between colon and type. -/
theorem Conversion.ascribes_parse_arrow :
    ∃ conversion, ofTree (.parse "a" "(a: (number)) : /* b */ any => a;")
        (.ofTree (.parse "a" "(a: (number)) : /* b */ any => a;")) = .ok conversion ∧
      ∀ a ∈ conversion.tree.root.nodes, a.kind.isAscription = true →
        ∃ n ∈ (Syntax.Tree.parse "a" "(a: (number)) : /* b */ any => a;").root.nodes, ∃ type,
          n.kind.annotation? = some type ∧
          ∃ colon, n.span.start ≤ colon.span.start ∧
            a.Ascribes (.parse "a" "(a: (number)) : /* b */ any => a;") colon type :=
  ascribes_parse "a" "(a: (number)) : /* b */ any => a;" _ (by decide +kernel) rfl

/-- A parenthesis in front of the type hides the colon. -/
theorem Conversion.not_startAtColons_parenthesis :
    ¬ ∀ (fileName text : String) (settings : Settings) (conversion : Conversion),
      (Syntax.Tree.parse fileName text).errors = [] → settings.ranges = true →
      ofTree (.parse fileName text) settings = .ok conversion →
      conversion.StartAtColons (.parse fileName text) := by
  intro hall
  obtain ⟨conversion, h⟩ : ∃ conversion, ofTree (.parse "a" "let a: (number);")
      (.ofTree (.parse "a" "let a: (number);")) = .ok conversion :=
    exists_ofTree (by decide +kernel) _
  have hmisses : (ofTree (.parse "a" "let a: (number);") (.ofTree (.parse "a" "let a: (number);"))).toOption.all
      (fun c => decide (c.StartAtColons (.parse "a" "let a: (number);"))) = false := by
    decide +kernel
  rw [h] at hmisses
  exact of_decide_eq_false hmisses (hall "a" _ _ conversion (by decide +kernel) rfl h)

end Ast

end ScriptAnalysis
