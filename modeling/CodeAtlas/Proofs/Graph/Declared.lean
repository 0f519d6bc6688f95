import CodeAtlas.Proofs.Declaration.Calls
import CodeAtlas.Proofs.Declaration.Parts
import CodeAtlas.Proofs.Declaration.Sites
import CodeAtlas.Proofs.Graph.Implementations

/-!
# The declarations of a project

What the syntax trees of the files say about the entries of their table: a nested type is named by
its name and a member by its signature, members stand in types, and a method goes by one name. With
that, the laws of parts and calls can be stated of every project.

## Main definitions

* `DeclaredIn`: what one of the files declares.
* `OwnName`: what an entry is called inside the type around it.

## Main statements

* `Table.parts_merged`: the parts of a partial type are merged into one type.
* `Table.calledMethod_binds`: what a call is bound to.
-/
namespace CodeAtlas

namespace Tree.Makes

variable {source path : String} {t : Tree} {d : Declaration}

/-- A member stands in a type and is named by its signature. -/
theorem signature?_eq (h : Makes source path t d) (htype : d.kind.isType = false) :
    t.signature? source = some d.segment ∧ d.parent.isSome = true := by
  cases h with
  | type hkind => simp [Declaration.ofType, isType_of_typeKind? hkind] at htype
  | member _ _ _ hd =>
    exact ⟨segment_of_ofMember? hd, by simp [parent_of_ofMember? source path hd]⟩

/-- Only fields and events are declared in lists. -/
theorem names_eq (h : Makes source path t d) (hmethod : d.kind = .method) : d.names = [d.name] := by
  cases h with
  | type => rfl
  | @member _ kind _ _ _ _ _ hd =>
    obtain ⟨name, -, hd⟩ := Option.bind_eq_some_iff.mp hd
    obtain ⟨signature, -, hd⟩ := Option.bind_eq_some_iff.mp hd
    obtain rfl := Option.some.inj hd
    have hlist : t.declaresList kind = false := by
      cases kind <;> simp_all [declaresList, MemberKind.symbolKind]
    simp [hlist]

end Tree.Makes

open SymbolGraph

variable {files : List SourceFile} {options : IndexSettings} {t : Table} {i p : Nat} {e : Entry}

/-! ## The nodes of the entries -/

/-- The declaration `d` is made in one of the `files`: a type, which is named by its name and
outside of all types also by its namespace, or a member of a type, which is named by its signature
and which goes by one name if it is a method. -/
def DeclaredIn (files : List SourceFile) (d : Declaration) : Prop :=
  (d.kind.isType = true ∧
    d.segment = if d.parent.isSome then d.name else qualify d.namespace d.name) ∨
  (d.kind.isType = false ∧ d.parent.isSome = true ∧ (d.kind = .method → d.names = [d.name]) ∧
    ∃ f ∈ files, ∃ n ∈ f.tree.preorder, n.extent f.path = d.extent ∧
      n.signature? f.text = some d.segment)

theorem declaredIn_of_makes {f : SourceFile} {n : Tree} {d : Declaration} (hf : f ∈ files)
    (hn : n ∈ f.tree.preorder) (h : n.Makes f.text f.path d) (offset : Nat) :
    DeclaredIn files (d.shift offset).baseless := by
  have hparent : (d.shift offset).parent.isSome = d.parent.isSome := Option.isSome_map
  unfold DeclaredIn
  rw [show (d.shift offset).baseless.parent = (d.shift offset).parent from rfl, hparent]
  cases htype : d.kind.isType with
  | true => exact .inl ⟨htype, h.segment_eq htype⟩
  | false =>
    obtain ⟨hsignature, hsome⟩ := h.signature?_eq htype
    exact .inr ⟨htype, hsome, h.names_eq, f, hf, n, hn, h.extent_eq.symm, hsignature⟩

/-- Every entry of the table of some files is declared in one of them. -/
theorem declaredIn_of_entry (he : (tableOf files options).entries[i]? = some e) :
    DeclaredIn files e.toDeclaration := by
  obtain ⟨pre, f, post, k, d, rfl, -, hd, heq⟩ := exists_declaration_of_entry he
  have hmem : d ∈ f.tree.declarations f.text f.path := List.mem_of_getElem? hd
  rw [← Tree.map_declaration_sites] at hmem
  obtain ⟨s, hs, rfl⟩ := List.mem_map.mp hmem
  obtain ⟨hat, hmakes⟩ := Tree.forall_mem_sites f.tree f.text f.path s hs
  have hf : f ∈ pre ++ f :: post := by simp
  have hdeclared := declaredIn_of_makes hf (Tree.mem_preorder_of_at? hat) hmakes (offsetAfter pre)
  rwa [heq] at hdeclared

/-- The entry `e` is called `own` inside the type around it: the name of a type, the signature of a
member. -/
def OwnName (files : List SourceFile) (e : Entry) (own : String) : Prop :=
  e.kind.isType = true ∧ own = e.name ∨
    e.kind.isType = false ∧ ∃ f ∈ files, ∃ n ∈ f.tree.preorder,
      n.extent f.path = e.toDeclaration.extent ∧ n.signature? f.text = some own

theorem ownName_segment (he : (tableOf files options).entries[i]? = some e)
    (hparent : e.parent = some p) : OwnName files e e.segment := by
  rcases declaredIn_of_entry he with ⟨htype, hsegment⟩ | ⟨htype, -, -, hnode⟩
  · exact .inl ⟨htype, by simpa [hparent] using hsegment⟩
  · exact .inr ⟨htype, hnode⟩

/-- Outside of all types, only types are declared. They are named by namespace and name. -/
theorem segment_eq_qualify (he : (tableOf files options).entries[i]? = some e)
    (hparent : e.parent = none) :
    e.kind.isType = true ∧ e.segment = qualify e.namespace e.name := by
  rcases declaredIn_of_entry he with ⟨htype, hsegment⟩ | ⟨-, hsome, -⟩
  · exact ⟨htype, by simpa [hparent] using hsegment⟩
  · simp [hparent] at hsome

theorem properMethods_tableOf (files : List SourceFile) (options : IndexSettings) :
    (tableOf files options).ProperMethods := by
  intro i e he hmethod
  rcases declaredIn_of_entry he with ⟨htype, -⟩ | ⟨-, hsome, hnames, -⟩
  · simp [hmethod, SymbolKind.isType] at htype
  · exact ⟨hnames hmethod, hsome⟩

/-- The type around an entry stands before it. -/
theorem parent_lt (he : (tableOf files options).entries[i]? = some e)
    (hparent : e.parent = some p) : p < i := by
  have hfirst : TypesFirst 0 (joined 0 (files.map (·.declarations))) := by
    refine typesFirst_joined (fun file hfile => ?_) 0
    obtain ⟨f, -, rfl⟩ := List.mem_map.mp hfile
    exact f.tree.typesFirst_declarations f.text f.path
  have hmap := Table.map_getElem?_entries (files.map (·.declarations)) options.extraBuiltins
    (·.parent) (fun _ _ => rfl) i
  rw [show Table.ofFiles _ _ = tableOf files options from rfl, he, Option.map_some, hparent] at hmap
  obtain ⟨d, hd, hdparent⟩ := Option.map_eq_some_iff.mp hmap.symm
  exact hfirst (d, i) (List.mem_zipIdx_iff_getElem?.mpr hd) p hdparent

/-! ## Parts -/

namespace Table

/-- The parts of a partial type are merged into one type of the table `t` of `files`. Every entry
has a first part, which is its own first part and stands no later. Two entries have the same first
part if and only if they are partial, have the same unsuffixed id, and the first entry with that id
is partial too; then they are types. An entry in a type is named after the first part of that type,
and it has an ordinal exactly from the second entry with its unsuffixed id on. References denote
first parts, and the base types of a first part are those of all its parts. -/
theorem parts_merged (files : List SourceFile) (options : IndexSettings) {t : Table}
    (ht : t = tableOf files options) :
    (∀ i, t.leadPart (t.leadPart i) = t.leadPart i ∧ t.leadPart i ≤ i) ∧
    (∀ (i j : Nat) (a b : Entry), i ≠ j → t.entries[i]? = some a → t.entries[j]? = some b →
      (t.leadPart i = t.leadPart j ↔ a.isPartial = true ∧ b.isPartial = true ∧
        a.baseId = b.baseId ∧ (t.partialNamed? a.baseId).isSome = true) ∧
      (t.leadPart i = t.leadPart j → a.kind.isType = true ∧ b.kind.isType = true)) ∧
    (∀ (i : Nat) (e : Entry), t.entries[i]? = some e →
      (∀ p, e.parent = some p → ∃ lead own, t.entries[t.leadPart p]? = some lead ∧
        OwnName files e own ∧ e.baseId = lead.id ++ "." ++ own) ∧
      (e.parent = none → e.baseId = qualify e.namespace e.name) ∧
      e.id = ordinalId e.baseId (t.countBefore i e.baseId) ∧
      ∀ n, 2 ≤ n →
        (e.id = e.baseId ++ "#" ++ toString n ↔ t.countBefore i e.baseId + 1 = n)) ∧
    (∀ (text ns : String) (i : Nat), t.denotedType text ns = some i →
      t.leadPart i = i ∧ t.Holds i (·.kind.isType = true)) ∧
    ∀ (i : Nat) (e : Entry), t.entries[i]? = some e → t.leadPart i = i →
      ∀ text, text ∈ e.baseTypes ↔ ∃ j d, (files.flatMap (·.declarations))[j]? = some d ∧
        t.leadPart j = i ∧ text ∈ d.baseTypes := by
  have htable : t = ofFiles (files.map (·.declarations)) options.extraBuiltins := ht
  have horder : Orderly t.outline := ht ▸ orderly_tableOf files options
  refine ⟨fun i => ⟨leadPart_leadPart horder i, leadPart_le horder i⟩, ?_, ?_, ?_, ?_⟩
  · intro i j a b hne ha hb
    have hiff := leadPart_eq_iff htable hne ha hb
    refine ⟨hiff, fun hlead => ?_⟩
    obtain ⟨hpartial, hpartial', -⟩ := hiff.mp hlead
    subst ht
    exact ⟨isType_of_isPartial ha hpartial, isType_of_isPartial hb hpartial'⟩
  · intro i e he
    refine ⟨fun p hparent => ?_, fun hparent => ?_, ?_, fun n hn => ?_⟩
    · obtain ⟨lead, hlead, hbase⟩ :=
        exists_baseId_eq htable he hparent (parent_lt (ht ▸ he) hparent)
      exact ⟨lead, e.segment, hlead, ownName_segment (ht ▸ he) hparent, hbase⟩
    · rw [baseId_eq_segment (htable ▸ he) hparent, (segment_eq_qualify (ht ▸ he) hparent).2]
    · subst htable
      exact id_ofFiles he
    · subst htable
      exact id_eq_append_iff he hn
  · intro text ns i hdenoted
    obtain ⟨e, he, htype, hpart, -⟩ := denotedType_eq_some hdenoted
    exact ⟨leadPart_eq_self he hpart, e, he, htype⟩
  · intro i e he hi text
    subst htable
    rw [mem_baseTypes_ofFiles he hi, List.flatMap_def]

/-- A partial class in three files, of which the second has a base and the third a method. -/
def threePartFiles : List SourceFile :=
  partialFiles ++ [{ path := "c.cs"
                     text := "partial class T \x7b void A(int n); \x7d"
                     tree := .ofPart 34 [.ofOverload 18 3] }]

theorem parts_merged_threeParts :
    (tableOf threePartFiles {}).leadPart 2 = (tableOf threePartFiles {}).leadPart 3 ∧
    (tableOf threePartFiles {}).Holds 3 (fun e => e.id = e.baseId ++ "#" ++ toString 3) ∧
    (tableOf threePartFiles {}).Holds 4 (fun e => ∃ lead own,
      (tableOf threePartFiles {}).entries[(tableOf threePartFiles {}).leadPart 3]? = some lead ∧
      OwnName threePartFiles e own ∧ e.baseId = lead.id ++ "." ++ own) ∧
    (tableOf threePartFiles {}).Holds 0 (fun e => "I" ∈ e.baseTypes) := by
  obtain ⟨-, hparts, hids, -, hbases⟩ := parts_merged threePartFiles {} rfl
  have hpart {i : Nat} (hi : i = 2 ∨ i = 3) : (tableOf threePartFiles {}).Holds i
      fun e => e.isPartial = true ∧ e.baseId = "T" := by
    rcases hi with rfl | rfl <;> decide +kernel
  obtain ⟨a, ha, hpartial, hbase⟩ := hpart (.inl rfl)
  obtain ⟨b, hb, hpartial', hbase'⟩ := hpart (.inr rfl)
  obtain ⟨e, he, hparent⟩ : (tableOf threePartFiles {}).Holds 4 (·.parent = some 3) := by
    decide +kernel
  obtain ⟨lead, hlead, -⟩ : (tableOf threePartFiles {}).Holds 0 fun _ => True := by decide +kernel
  refine ⟨?_, ⟨b, hb, ?_⟩, ⟨e, he, (hids 4 e he).1 3 hparent⟩, lead, hlead, ?_⟩
  · refine (hparts 2 3 a b (by decide) ha hb).1.mpr
      ⟨hpartial, hpartial', hbase.trans hbase'.symm, ?_⟩
    rw [hbase]
    decide +kernel
  · refine ((hids 3 b hb).2.2.2 3 (by decide)).mpr ?_
    rw [hbase']
    decide +kernel
  · refine (hbases 0 lead hlead (by decide +kernel) "I").mpr ?_
    have hdeclared : ((threePartFiles.flatMap (·.declarations))[2]?).map (·.baseTypes) =
        some ["I"] := by decide +kernel
    obtain ⟨d, hd, htypes⟩ := Option.map_eq_some_iff.mp hdeclared
    exact ⟨2, d, hd, by decide +kernel, by simp [htypes]⟩

/-! ## Calls -/

/-- A call of `name` is bound to a method `m` of this name. With a `receiver` the method is one of a
type in the chain of the receiver, and the place of the call does not matter. Without one it belongs
to a type in the chain of the type `context` around the call, or that chain has no method of the
name and all methods of the name in the project belong to the type that `m` is in. If `m` takes
another number of arguments than `args`, so do all methods of the name in its type. -/
theorem calledMethod_binds {files : List SourceFile} {options : IndexSettings} {t : Table}
    (ht : t = tableOf files options) {name : String} {receiver context : Option Nat} {args m : Nat}
    (h : t.calledMethod name receiver context args = some m) :
    ∃ owner, t.HasMethod owner name m ∧
      (∀ type, receiver = some type → owner ∈ t.ancestry type ∧
        ∀ context', t.calledMethod name receiver context' args = some m) ∧
      (receiver = none →
        (∃ type, context = some type ∧ owner ∈ t.ancestry type) ∨
        (∀ type, context = some type → ∀ o ∈ t.ancestry type, ∀ k, ¬ t.HasMethod o name k) ∧
        ∀ (k : Nat) (e : Entry), t.entries[k]? = some e → e.kind = .method → e.name = name →
          t.owner? e = some owner) ∧
      (¬ t.Holds m (·.paramCount = args) →
        ∀ k, t.HasMethod owner name k → ¬ t.Holds k (·.paramCount = args)) := by
  have hproper : t.ProperMethods := ht ▸ properMethods_tableOf files options
  rcases calledMethod_cases h with ⟨type, hplace, hbest⟩ | ⟨rfl, hchain, howners, hbest⟩
  · obtain ⟨owner, howner, hmethod, hexact⟩ := exists_owner_of_nearest hproper hbest
    refine ⟨owner, hmethod, fun type' htype => ?_, fun hnone => ?_,
      fun hargs k hk hk' => hargs (hexact k hk hk')⟩
    · subst htype
      rcases hplace with hplace | ⟨hplace, -⟩
      · obtain rfl := Option.some.inj hplace
        exact ⟨howner, fun _ => h⟩
      · simp at hplace
    · rcases hplace with hplace | ⟨-, hplace⟩
      · simp [hnone] at hplace
      · exact .inl ⟨type, hplace, howner⟩
  · obtain ⟨owner, hmethod, hall, hexact⟩ := exists_owner_of_everywhere hproper howners hbest
    refine ⟨owner, hmethod, by simp, fun _ => .inr ⟨fun type htype o ho k hk => ?_, hall⟩,
      fun hargs k hk hk' => hargs (hexact k hk hk')⟩
    exact nearestMembers_eq_nil.mp (hchain type htype) o ho k (hproper.offers_iff.mpr hk)

theorem calledMethod_binds_baseAndMethodFiles :
    (tableOf baseAndMethodFiles {}).calledMethod "A" none none 2 = some 3 ∧
    (tableOf baseAndMethodFiles {}).calledMethod "A" (some 2) none 2 = some 3 ∧
    (∃ owner, (tableOf baseAndMethodFiles {}).HasMethod owner "A" 3 ∧
      ∀ (k : Nat) (e : Entry), (tableOf baseAndMethodFiles {}).entries[k]? = some e →
        e.kind = .method → e.name = "A" →
        (tableOf baseAndMethodFiles {}).owner? e = some owner) ∧
    ∃ owner ∈ (tableOf baseAndMethodFiles {}).ancestry 2,
      ∀ k, (tableOf baseAndMethodFiles {}).HasMethod owner "A" k →
        ¬ (tableOf baseAndMethodFiles {}).Holds k (·.paramCount = 2) := by
  have hbare : (tableOf baseAndMethodFiles {}).calledMethod "A" none none 2 = some 3 := by
    decide +kernel
  have hreceiver : (tableOf baseAndMethodFiles {}).calledMethod "A" (some 2) none 2 = some 3 := by
    decide +kernel
  refine ⟨hbare, hreceiver, ?_, ?_⟩
  · obtain ⟨owner, hmethod, -, hplace, -⟩ := calledMethod_binds rfl hbare
    rcases hplace rfl with ⟨type, htype, -⟩ | ⟨-, hall⟩
    · simp at htype
    · exact ⟨owner, hmethod, hall⟩
  · obtain ⟨owner, -, hchain, -, hargs⟩ := calledMethod_binds rfl hreceiver
    exact ⟨owner, (hchain 2 rfl).1, hargs (by decide +kernel)⟩

end Table

end CodeAtlas
