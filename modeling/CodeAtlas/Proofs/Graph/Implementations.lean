import CodeAtlas.Proofs.Graph.Sites

/-!
# The implementers of an interface

A base list that names an interface yields two things: a link of the part that has the list, and a
record of the type that the part belongs to. Links are dropped between parts of one type, records if
the type is the interface itself. Since a name never denotes a later part, the two tests agree, and
the records of a graph can be read off its links.

## Main definitions

* `SymbolGraph.Implements`: a part of a type has a link to an interface.

## Main statements

* `Reader.mem_baseUse_iff`: a base list records an implementer exactly where it has a link.
* `SymbolGraph.implementers_iff_links`: the implementers of an interface are the first parts of what
  has a link to it.
* `SymbolGraph.method_listed_of_equal_paths`: if two files have the same path, a method can be among
  them.
-/
namespace CodeAtlas

/-! ## Base lists -/

namespace Reader

variable {r : Reader} {place : Place} {t : Tree} {p : Nat} {lead : Entry}
  {interface implementer : String}

/-- In the place of a type, an entry of its base list yields nothing, a link to a class, or a link
to an interface together with the record that the type implements it. -/
theorem baseUse_cases (t : Tree) (hnode : place.node = some p) (htype : place.type = some p)
    (hlead : r.table.entries[r.table.leadPart p]? = some lead) :
    r.baseUse place t = [] ∨ ∃ target start length,
      r.baseUse place t = [.link p ⟨target, .inherits, start, length⟩] ∨
      r.baseUse place t = [.link p ⟨target, .implements, start, length⟩,
        .implementation target lead.id] := by
  unfold baseUse
  split
  · exact .inl rfl
  next target htarget =>
  split
  · exact .inl rfl
  next entry hentry =>
  obtain ⟨entry', hentry', -, hpart, -, -⟩ := Table.denotedType_eq_some htarget
  obtain rfl : entry = entry' := by simpa [hentry] using hentry'
  -- a name never denotes a later part, so the link and the record are dropped together
  have hself : r.table.leadPart target = target := Table.leadPart_eq_self hentry hpart
  by_cases hsame : r.table.leadPart p = target
  · left
    split <;> simp [linkTo, hnode, htype, hentry, hself, hsame, Option.filter_some]
  · refine .inr ⟨entry.id, t.nameSite.start, t.nameSite.length, ?_⟩
    split
    · simp [linkTo, hnode, htype, hentry, hself, hsame, hlead, Option.filter_some]
    · simp [linkTo, hnode, hentry, hself, hsame]

theorem mem_baseUse_iff (hnode : place.node = some p) (htype : place.type = some p)
    (hlead : r.table.entries[r.table.leadPart p]? = some lead) :
    .implementation interface implementer ∈ r.baseUse place t ↔
      lead.id = implementer ∧
        ∃ l, .link p l ∈ r.baseUse place t ∧ l.kind = .implements ∧ l.target = interface := by
  rcases baseUse_cases t hnode htype hlead with heq | ⟨target, start, length, heq | heq⟩
  · simp [heq]
  · simp [heq]
  · simp only [heq]
    grind

/-- A node that records an implementer is an entry of a base list. -/
theorem ownOf_eq_baseUse {v : Visit} (h : v.role = .base) :
    r.ownOf v = r.baseUse v.place v.node := by
  rw [ownOf_eq (by simp [h]), planOf, h, plan]

/-- A visited node records an implementer exactly where it has a link from a part of it. -/
theorem mem_ownOf_implementation_iff {root : Tree} {v : Visit} (horder : Orderly r.table.outline)
    (h : r.Stands root v) :
    .implementation interface implementer ∈ r.ownOf v ↔ ∃ p l,
      .link p l ∈ r.ownOf v ∧ l.kind = .implements ∧ l.target = interface ∧
        r.table.Holds (r.table.leadPart p) (·.id = implementer) := by
  by_cases hrole : v.role = .base
  · obtain ⟨p, hnode, htype, n, -, -, hat⟩ := h.bases (by simp [hrole, Role.isBase])
    obtain ⟨e, he, -⟩ := Table.at?_eq_some hat
    obtain ⟨lead, hlead, -, -⟩ := Table.exists_leadPart horder he
    constructor
    · intro hmem
      rw [ownOf_eq_baseUse hrole] at hmem ⊢
      obtain ⟨hid, l, hl, hkind, htarget⟩ := (mem_baseUse_iff hnode htype hlead).mp hmem
      exact ⟨p, l, hl, hkind, htarget, lead, hlead, hid⟩
    · rintro ⟨p', l, hl, hkind, htarget, lead', hlead', hid⟩
      -- the link comes from the type that has the base list
      obtain rfl : p = p' := by
        cases emits_of_mem_ownOf hl with
        | link node_eq => simpa [hnode] using node_eq
      obtain rfl : lead = lead' := by simpa [hlead] using hlead'
      rw [ownOf_eq_baseUse hrole] at hl ⊢
      exact (mem_baseUse_iff hnode htype hlead).mpr ⟨hid, l, hl, hkind, htarget⟩
  · constructor
    · intro hmem
      cases emits_of_mem_ownOf hmem with
      | implementation base => exact absurd base hrole
    · rintro ⟨p, l, hmem, hkind, -⟩
      cases emits_of_mem_ownOf hmem with
      | link _ _ _ _ _ base => exact absurd (base hkind) hrole

/-- In a file, an implementer is recorded exactly where a part of it has a link. -/
theorem mem_contributions_implementation_iff (horder : Orderly r.table.outline) (root : Tree) :
    .implementation interface implementer ∈ r.contributions root ↔ ∃ p l,
      .link p l ∈ r.contributions root ∧ l.kind = .implements ∧ l.target = interface ∧
        r.table.Holds (r.table.leadPart p) (·.id = implementer) := by
  obtain ⟨vs, hvs, heq⟩ := exists_visits r root
  simp only [heq, List.mem_flatMap]
  constructor
  · rintro ⟨v, hv, hmem⟩
    obtain ⟨p, l, hl, hlink⟩ := (mem_ownOf_implementation_iff horder (hvs v hv).stands).mp hmem
    exact ⟨p, l, ⟨v, hv, hl⟩, hlink⟩
  · rintro ⟨p, l, ⟨v, hv, hl⟩, hlink⟩
    exact ⟨v, hv, (mem_ownOf_implementation_iff horder (hvs v hv).stands).mpr ⟨p, l, hl, hlink⟩⟩

end Reader

/-! ## Records -/

@[simp]
theorem mem_addOnce {x y : String} {xs : List String} : x ∈ addOnce y xs ↔ x = y ∨ x ∈ xs := by
  unfold addOnce
  split
  · next h =>
    have hy : y ∈ xs := by simpa using h
    grind
  · simp [or_comm]

theorem nodup_addOnce {y : String} {xs : List String} (h : xs.Nodup) : (addOnce y xs).Nodup := by
  unfold addOnce
  split
  · exact h
  · next hy => exact List.nodup_append.mpr ⟨h, by simp, by grind⟩

namespace SymbolGraph

open Std

variable {g : SymbolGraph} {pairs : List (String × String)} {interface implementer : String}

@[simp] theorem implementations_implement (g : SymbolGraph) (interface implementer key : String) :
    (g.implement interface implementer).implementations[key]? =
      if interface = key then some (addOnce implementer (g.implementers key))
      else g.implementations[key]? := by
  simp only [implement, TreeMap.getElem?_alter, Std.compare_eq_iff_eq, implementers]
  split
  · next heq => simp [heq]
  · rfl

/-- The graph `g` records exactly the given `pairs` of an interface and a type, each once. -/
structure Records (g : SymbolGraph) (pairs : List (String × String)) : Prop where
  mem_iff : ∀ interface implementer,
    implementer ∈ g.implementers interface ↔ (interface, implementer) ∈ pairs
  nodup : ∀ interface, (g.implementers interface).Nodup
  nonempty : ∀ (key : String) (list : List String),
    g.implementations[key]? = some list → list ≠ []

theorem Records.implement (h : g.Records pairs) :
    (g.implement interface implementer).Records (pairs ++ [(interface, implementer)]) := by
  have hlist (key : String) : (g.implement interface implementer).implementers key =
      if interface = key then addOnce implementer (g.implementers key)
      else g.implementers key := by
    unfold implementers
    rw [implementations_implement]
    split <;> rfl
  refine ⟨fun key type => ?_, fun key => ?_, fun key list hkey => ?_⟩
  · rw [hlist, List.mem_append, ← h.mem_iff]
    split
    · next heq => simp [mem_addOnce, heq, or_comm]
    · next hne => simp [Ne.symm hne]
  · rw [hlist]
    split
    · exact nodup_addOnce (h.nodup key)
    · exact h.nodup key
  · rw [implementations_implement] at hkey
    split at hkey
    · obtain rfl := Option.some.inj hkey
      exact List.ne_nil_of_mem (mem_addOnce.mpr (.inl rfl))
    · exact h.nonempty key list hkey

theorem records_foldl_implement (ps : List (String × String)) (h : g.Records pairs) :
    (ps.foldl (fun g (interface, type) => g.implement interface type) g).Records (pairs ++ ps) := by
  induction ps generalizing g pairs with
  | nil => simpa using h
  | cons p ps ih =>
    rw [List.append_cons]
    exact ih h.implement

@[simp] theorem implementations_foldl_insert (ns : List Symbol) (g : SymbolGraph) :
    (ns.foldl insert g).implementations = g.implementations := by
  induction ns generalizing g with
  | nil => rfl
  | cons n ns ih => exact ih _

/-- The graph of a table records the implementations that were found. -/
theorem records_assemble (ids : Nat → String) (table : Table)
    (found : List (String × Contribution)) :
    (assemble ids table found).Records (implementationsOf found) := by
  have hstart : ((symbolsOf ids table found).foldl insert empty).Records [] := by
    have hempty (key : String) : empty.implementations[key]? = none := by simp [empty]
    constructor <;> simp [implementers, hempty]
  obtain ⟨hmem, hnodup, hne⟩ := records_foldl_implement (implementationsOf found) hstart
  exact ⟨hmem, hnodup, hne⟩

@[simp] theorem mem_implementationsOf {found : List (String × Contribution)} :
    (interface, implementer) ∈ implementationsOf found ↔
      ∃ path, (path, .implementation interface implementer) ∈ found := by
  simp only [implementationsOf, List.mem_filterMap, Prod.exists]
  constructor
  · rintro ⟨path, c, hc, h⟩
    cases c with
    | implementation a b =>
      obtain ⟨rfl, rfl⟩ : a = interface ∧ b = implementer := by simpa using h
      exact ⟨path, hc⟩
    | link source l => simp at h
    | granular kind name start length => simp at h
  · rintro ⟨path, h⟩
    exact ⟨path, _, h, rfl⟩

/-! ## The records of some files -/

variable {files : List SourceFile} {options : IndexSettings} {table : Table} {path : String}
  {p : Nat} {l : Link}

/-- In `files`, the `implementer` is recorded under the `interface` exactly where a part of it has a
link. -/
theorem exists_implementation_iff (horder : Orderly table.outline) :
    (∃ path, (path, .implementation interface implementer) ∈ contributionsOf files table options) ↔
      ∃ path p l, (path, .link p l) ∈ contributionsOf files table options ∧
        l.kind = .implements ∧ l.target = interface ∧
        table.Holds (table.leadPart p) (·.id = implementer) := by
  simp only [mem_contributionsOf]
  constructor
  · rintro ⟨path, f, hf, hpath, hc⟩
    obtain ⟨p, l, hl, hlink⟩ :=
      (Reader.mem_contributions_implementation_iff horder f.tree).mp hc
    exact ⟨path, p, l, ⟨f, hf, hpath, hl⟩, hlink⟩
  · rintro ⟨path, p, l, ⟨f, hf, hpath, hl⟩, hlink⟩
    exact ⟨path, f, hf, hpath,
      (Reader.mem_contributions_implementation_iff horder f.tree).mpr ⟨p, l, hl, hlink⟩⟩

/-- A link comes from an entry of the table. -/
theorem exists_source_of_link (h : (path, .link p l) ∈ contributionsOf files table options) :
    ∃ e, table.entries[p]? = some e := by
  obtain ⟨f, -, -, v, hstands, hemits⟩ := exists_stands_of_mem_contributionsOf h
  cases hemits with
  | link node_eq =>
    obtain ⟨n, -, -, hat, -⟩ := hstands.owner p node_eq
    obtain ⟨e, he, -⟩ := Table.at?_eq_some hat
    exact ⟨e, he⟩

/-- The first part of the source of a link is no later part itself. -/
theorem firstPart_leadPart_of_link {lead : Entry}
    (h : (path, .link p l) ∈ contributionsOf files (tableOf files options) options)
    (hlead : (tableOf files options).entries[(tableOf files options).leadPart p]? = some lead) :
    lead.firstPart = none := by
  obtain ⟨part, hpart⟩ := exists_source_of_link h
  obtain ⟨lead', hlead', hfirst, -⟩ :=
    Table.exists_leadPart (orderly_tableOf files options) hpart
  obtain rfl : lead = lead' := by simpa [hlead] using hlead'
  exact hfirst

/-- If declarations are told apart by their places, only types implement anything. -/
theorem isType_of_implements (hpaths : (files.map (·.path)).Nodup)
    (hstarts : ∀ f ∈ files, f.tree.StartsApart) (hkind : l.kind = .implements)
    (h : (path, .link p l) ∈ contributionsOf files (tableOf files options) options) :
    (tableOf files options).Holds p (·.kind.isType = true) := by
  obtain ⟨f, hf, -, v, hstands, hemits⟩ := exists_stands_of_mem_contributionsOf h
  cases hemits with
  | link node_eq _ _ _ _ base =>
    obtain ⟨q, hq, -, n, hn, hisType, hat⟩ := hstands.bases (by simp [base hkind, Role.isBase])
    obtain rfl : p = q := by simpa [node_eq] using hq
    refine (holds_extent_of_at? hpaths hstarts hf hn (by simp [Tree.declares, hisType]) hat).imp
      fun e he => ?_
    exact (congrArg Extent.isType he).trans hisType

/-- Only types have parts. -/
theorem isType_of_isPartial {e : Entry} (he : (tableOf files options).entries[p]? = some e)
    (h : e.isPartial = true) : e.kind.isType = true := by
  obtain ⟨_, f, _, _, d, -, -, hd, heq⟩ := exists_declaration_of_entry he
  have hpartial : d.isPartial = e.isPartial := (congrArg Declaration.isPartial heq :)
  have hkind : d.kind = e.kind := (congrArg Declaration.kind heq :)
  rw [← hkind]
  exact (Tree.declaredBy_declarations f.text f.path f.tree).isType_of_isPartial d
    (List.mem_of_getElem? hd) (hpartial.trans h)

/-- If ids are distinct, the links of a symbol are those that were found for its entry. -/
theorem mem_links_iff_found {e : Entry} (hids : (table.entries.toList.map Entry.id).Nodup)
    (he : table.entries[p]? = some e) :
    l ∈ (declarationNode (contributionsOf files table options) p e).links ↔
      ∃ path, (path, .link p l) ∈ contributionsOf files table options := by
  rw [mem_links_declarationNode]
  refine ⟨And.left, fun h => ⟨h, fun hself => ?_⟩⟩
  obtain ⟨path, hfound⟩ := h
  obtain ⟨target, -, hparts, entry, hentry, hid⟩ := permitted_of_mem_contributionsOf hfound
  -- a link to the symbol itself would lead to a part of the same type
  obtain rfl : p = target := eq_of_id_eq hids he hentry (hid.trans hself).symm
  exact hparts rfl

/-- A part of the type that the entry at position `k` leads has a link to the interface. -/
def Implements (table : Table) (g : SymbolGraph) (k : Nat) (interface : String) : Prop :=
  ∃ p part n, table.entries[p]? = some part ∧ table.leadPart p = k ∧ g.node? part.id = some n ∧
    ∃ l ∈ n.links, l.kind = .implements ∧ l.target = interface

/-- What is listed under an interface is the first part of the source of a link to it. -/
theorem mem_implementers_iff :
    implementer ∈ (ofFiles files options).implementers interface ↔
      ∃ path p l, (path, .link p l) ∈ contributionsOf files (tableOf files options) options ∧
        l.kind = .implements ∧ l.target = interface ∧
        (tableOf files options).Holds ((tableOf files options).leadPart p)
          (·.id = implementer) := by
  rw [← exists_implementation_iff (orderly_tableOf files options), ← mem_implementationsOf]
  exact (records_assemble _ _ _).mem_iff interface implementer

/-- Nothing is listed under itself: a type has no link to its own first part. -/
theorem ne_of_mem_implementers
    (hids : ((tableOf files options).entries.toList.map Entry.id).Nodup)
    (h : implementer ∈ (ofFiles files options).implementers interface) :
    implementer ≠ interface := by
  rintro rfl
  obtain ⟨path, p, l, hfound, -, htarget, lead, hlead, hid⟩ := mem_implementers_iff.mp h
  have hfirst := firstPart_leadPart_of_link hfound hlead
  obtain ⟨target, -, hparts, entry, hentry, hid'⟩ := permitted_of_mem_contributionsOf hfound
  obtain rfl := eq_of_id_eq hids hlead hentry (hid.trans (htarget.symm.trans hid'.symm))
  exact hparts (Table.leadPart_eq_self hlead hfirst).symm

section Files

variable (hids : DistinctIds files options)
include hids

theorem implements_iff {k : Nat} :
    Implements (tableOf files options) (ofFiles files options) k interface ↔
      ∃ path p l, (path, .link p l) ∈ contributionsOf files (tableOf files options) options ∧
        l.kind = .implements ∧ l.target = interface ∧ (tableOf files options).leadPart p = k := by
  have hnodup := nodup_ids_tableOf options hids.plain
  constructor
  · rintro ⟨p, part, n, hpart, hlead, hn, l, hl, hkind, htarget⟩
    rw [node?_ofFiles hids hpart] at hn
    obtain rfl := Option.some.inj hn
    obtain ⟨path, hfound⟩ := (mem_links_iff_found hnodup hpart).mp hl
    exact ⟨path, p, l, hfound, hkind, htarget, hlead⟩
  · rintro ⟨path, p, l, hfound, hkind, htarget, hlead⟩
    obtain ⟨part, hpart⟩ := exists_source_of_link hfound
    exact ⟨p, part, _, hpart, hlead, node?_ofFiles hids hpart, l,
      (mem_links_iff_found hnodup hpart).mpr ⟨path, hfound⟩, hkind, htarget⟩

theorem exists_interface_of_mem_implementers
    (h : implementer ∈ (ofFiles files options).implementers interface) :
    ∃ n, (ofFiles files options).node? interface = some n ∧ n.kind = .interface := by
  obtain ⟨path, p, l, hfound, hkind, rfl, -⟩ := mem_implementers_iff.mp h
  obtain ⟨target, ⟨entry, hentry, hadmits, -⟩, -, entry', hentry', hid⟩ :=
    permitted_of_mem_contributionsOf hfound
  obtain rfl : entry = entry' := by simpa [hentry] using hentry'
  rw [← hid]
  refine ⟨_, node?_ofFiles hids hentry, ?_⟩
  simpa [hkind, LinkKind.admits] using hadmits

theorem exists_type_of_mem_implementers (hpaths : (files.map (·.path)).Nodup)
    (hstarts : ∀ f ∈ files, f.tree.StartsApart)
    (h : implementer ∈ (ofFiles files options).implementers interface) :
    ∃ n, (ofFiles files options).node? implementer = some n ∧ n.kind.isType = true := by
  obtain ⟨path, p, l, hfound, hkind, -, lead, hlead, rfl⟩ := mem_implementers_iff.mp h
  obtain ⟨part, hpart, htype⟩ := isType_of_implements hpaths hstarts hkind hfound
  obtain ⟨lead', hlead', -, hself⟩ := Table.exists_leadPart (orderly_tableOf files options) hpart
  obtain rfl : lead = lead' := by simpa [hlead] using hlead'
  refine ⟨_, node?_ofFiles hids hlead, ?_⟩
  rw [kind_declarationNode]
  rcases hself with rfl | hpartial
  · exact htype
  · exact isType_of_isPartial hlead hpartial

end Files

/-- The records of the graph of `files` agree with its links: listed under an `interface` are the
ids of those first parts that have a part with a link to it. The keys are ids of interfaces, the
lists have no repetitions, and nothing implements itself. If declarations are told apart by their
places, all that is listed are types. -/
theorem implementers_iff_links (files : List SourceFile) (options : IndexSettings)
    (hids : DistinctIds files options) :
    let table := tableOf files options
    let g := ofFiles files options
    (∀ interface implementer, implementer ∈ g.implementers interface ↔
      ∃ k lead, table.entries[k]? = some lead ∧ lead.firstPart = none ∧ lead.id = implementer ∧
        Implements table g k interface) ∧
    (∀ (key : String) (list : List String), g.implementations[key]? = some list →
      list ≠ [] ∧ list.Nodup ∧ key ∉ list ∧ ∃ n, g.node? key = some n ∧ n.kind = .interface) ∧
    ((files.map (·.path)).Nodup → (∀ f ∈ files, f.tree.StartsApart) →
      ∀ interface, ∀ implementer ∈ g.implementers interface,
        ∃ n, g.node? implementer = some n ∧ n.kind.isType = true) := by
  intro table g
  refine ⟨fun interface implementer => ?_, fun key list hkey => ?_, fun hpaths hstarts _ _ =>
    exists_type_of_mem_implementers hids hpaths hstarts⟩
  · rw [mem_implementers_iff]
    constructor
    · rintro ⟨path, p, l, hfound, hkind, htarget, lead, hlead, hid⟩
      exact ⟨_, lead, hlead, firstPart_leadPart_of_link hfound hlead, hid,
        (implements_iff hids).mpr ⟨path, p, l, hfound, hkind, htarget, rfl⟩⟩
    · rintro ⟨k, lead, hlead, -, hid, himplements⟩
      obtain ⟨path, p, l, hfound, hkind, htarget, rfl⟩ :=
        (implements_iff hids).mp himplements
      exact ⟨path, p, l, hfound, hkind, htarget, lead, hlead, hid⟩
  · obtain ⟨-, hnodup, hnonempty⟩ :=
      records_assemble options.granularId table (contributionsOf files table options)
    have hlist : g.implementers key = list := by simp [implementers, hkey]
    have hne : list ≠ [] := hnonempty key list hkey
    obtain ⟨implementer, himplementer⟩ := List.exists_mem_of_ne_nil list hne
    refine ⟨hne, hlist ▸ hnodup key, fun hself => ?_,
      exists_interface_of_mem_implementers hids (hlist ▸ himplementer)⟩
    exact ne_of_mem_implementers (nodup_ids_tableOf options hids.plain) (hlist ▸ hself) rfl

/-- The tree of `interface I` with an empty body at the start of a text. -/
def interfaceTree : Tree :=
  .node { kind := "interface_declaration", length := 15 }
    [.ofToken "interface" 0, .ofLeaf "identifier" "name" 10 1,
      .node { kind := "declaration_list", label := some "body", start := 12, length := 3 }
        [.ofToken "\x7b" 12, .ofToken "\x7d" 14]]

/-- A partial class in two files, of which the second has an interface in its base list. -/
def partialFiles : List SourceFile :=
  [{ path := "a.cs"
     text := "partial class T \x7b \x7d"
     tree := .ofPart 19 [] },
    { path := "b.cs"
      text := "interface I \x7b \x7d partial class T : I \x7b \x7d"
      tree := .node { kind := "compilation_unit", length := 39 }
        [interfaceTree,
          .node { kind := "class_declaration", start := 16, length := 23 }
            [.node { kind := "modifier", start := 16, length := 7 } [], .ofToken "class" 24,
              .ofLeaf "identifier" "name" 30 1,
              .node { kind := "base_list", start := 32, length := 3 }
                [.ofToken ":" 32, .node { kind := "identifier", start := 34, length := 1 } []],
              .node { kind := "declaration_list", label := some "body", start := 36, length := 3 }
                [.ofToken "\x7b" 36, .ofToken "\x7d" 38]]] }]

theorem implementers_iff_links_partialFiles :
    (ofFiles partialFiles {}).implementers "I" = ["T"] ∧
    (∃ k lead, (tableOf partialFiles {}).entries[k]? = some lead ∧ lead.firstPart = none ∧
      lead.id = "T" ∧ Implements (tableOf partialFiles {}) (ofFiles partialFiles {}) k "I") ∧
    ∃ n, (ofFiles partialFiles {}).node? "T" = some n ∧ n.kind.isType = true := by
  have hlisted : (ofFiles partialFiles {}).implementers "I" = ["T"] := by decide +kernel
  have hmem : "T" ∈ (ofFiles partialFiles {}).implementers "I" := by simp [hlisted]
  obtain ⟨hiff, -, htypes⟩ :=
    implementers_iff_links partialFiles {}
      ⟨by decide +kernel, numberedId_injective, by decide +kernel⟩
  exact ⟨hlisted, (hiff "I" "T").mp hmem,
    htypes (by decide) (by decide +kernel) "I" "T" hmem⟩

/-- Two files that are listed under the same path. A class of the first and a method of the second
start at the same offset. -/
def equalPathFiles : List SourceFile :=
  [{ path := Path.normalize "src/A.cs"
     text := "interface I \x7b \x7d class T : I \x7b \x7d"
     tree := .node { kind := "compilation_unit", length := 31 }
      [interfaceTree,
        .node { kind := "class_declaration", start := 16, length := 15 }
          [.ofToken "class" 16, .ofLeaf "identifier" "name" 22 1,
            .node { kind := "base_list", start := 24, length := 3 }
              [.ofToken ":" 24, .node { kind := "identifier", start := 26, length := 1 } []],
            .node { kind := "declaration_list", label := some "body", start := 28, length := 3 }
              [.ofToken "\x7b" 28, .ofToken "\x7d" 30]]] },
    { path := Path.normalize "src\\A.cs"
      text := "class C \x7b       void A(int n); \x7d"
      tree := .ofFile 32 [.ofOverload 16 3] }]

/-- If two files have the same path, what a type implements can be attributed to a method that
starts where the type does. -/
theorem method_listed_of_equal_paths :
    (ofFiles equalPathFiles {}).implementers "I" = ["C.A(int)"] ∧
    ((ofFiles equalPathFiles {}).node? "C.A(int)").map (·.kind) = some .method ∧
    ((ofFiles equalPathFiles {}).node? "T").map (·.links) = some [] := by
  decide +kernel

end SymbolGraph

end CodeAtlas
