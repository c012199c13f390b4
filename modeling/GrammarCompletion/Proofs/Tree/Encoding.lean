import GrammarCompletion.Proofs.Json.Skipping
import GrammarCompletion.Proofs.Json.Writing
import GrammarCompletion.Proofs.Tree.Flattening
import GrammarCompletion.Tree.Json

/-! Parse trees and the JSON texts that stand for them. A node is encoded as an object that tells its
fields in any order: kind, start and end once each, text and children at most once, where an empty
one need not be told, and whatever else under other names. Reading such a text gives back the tree,
however deep it is. -/

namespace GrammarCompletion.Tree

open Json (Body Closes Datum Renders tokensOfMembers)
open Json.Reader (Reads bind_of_eq_ok)

inductive Field where
  | kind
  | text
  | start
  | stop
  | children
  | other
  deriving DecidableEq

def fieldNames : List String := ["type", "text", "start", "end", "children"]

inductive Tells (kind text : String) (span : Span) (inner : List Datum → Prop) :
    Field → Body × Datum → Prop where
  | kind {key body : Body} (hkey : key.Spells "type") (h : body.Spells kind) :
      Tells kind text span inner .kind (key, .string body)
  | text {key body : Body} (hkey : key.Spells "text") (h : body.Spells text) :
      Tells kind text span inner .text (key, .string body)
  | start {key : Body} (hkey : key.Spells "start") :
      Tells kind text span inner .start (key, .number (.ofNat span.start))
  | stop {key : Body} (hkey : key.Spells "end") :
      Tells kind text span inner .stop (key, .number (.ofNat span.stop))
  | children {key : Body} {ds : List Datum} (hkey : key.Spells "children") (h : inner ds) :
      Tells kind text span inner .children (key, .array ds)
  | other {key : Body} {name : String} (hkey : key.Spells name) (hname : name ∉ fieldNames)
      (d : Datum) : Tells kind text span inner .other (key, d)

/-- The fields are told often enough to know the node, and none of them twice. -/
structure Complete (text : String) (children : List Tree) (fields : List Field) : Prop where
  kind : .kind ∈ fields
  start : .start ∈ fields
  stop : .stop ∈ fields
  text : .text ∈ fields ∨ text = ""
  children : .children ∈ fields ∨ children = []
  once : (fields.filter (· ≠ .other)).Nodup

mutual

/-- The value is an object that tells the fields of the root. -/
def Encodes : Tree → Datum → Prop
  | node kind text span children, d =>
    ∃ fields members, d = .object members ∧ Complete text children fields ∧
      List.Forall₂ (Tells kind text span (EncodesAll children)) fields members

def EncodesAll : List Tree → List Datum → Prop
  | [], ds => ds = []
  | t :: ts, ds => ∃ d rest, t.Encodes d ∧ EncodesAll ts rest ∧ ds = d :: rest

end

theorem encodes_iff {t : Tree} {d : Datum} :
    t.Encodes d ↔ ∃ fields members, d = .object members ∧ Complete t.text t.children fields ∧
      List.Forall₂ (Tells t.kind t.text t.span (EncodesAll t.children)) fields members := by
  cases t
  exact Iff.rfl

theorem encodesAll_iff {ts : List Tree} {ds : List Datum} :
    EncodesAll ts ds ↔ List.Forall₂ Encodes ts ds := by
  induction ts generalizing ds with
  | nil => rw [EncodesAll, List.forall₂_nil_left_iff]
  | cons t ts ih => simp only [EncodesAll, List.forall₂_cons_left_iff, ih]

def FitsWord (t : Tree) : Prop :=
  ∀ s ∈ t.preorder, s.span.start ≤ Json.Number.maxWord ∧ s.span.stop ≤ Json.Number.maxWord

theorem preorderAll_eq_flatMap (ts : List Tree) : preorderAll ts = ts.flatMap preorder := by
  induction ts with
  | nil => rfl
  | cons t ts ih => rw [preorderAll, List.flatMap_cons, ih]

theorem FitsWord.span {t : Tree} (h : t.FitsWord) :
    t.span.start ≤ Json.Number.maxWord ∧ t.span.stop ≤ Json.Number.maxWord := by
  cases t with
  | node kind text span children => exact h _ List.mem_cons_self

theorem FitsWord.child {t c : Tree} (h : t.FitsWord) (hc : c ∈ t.children) : c.FitsWord := by
  cases t with
  | node kind text span children =>
    intro s hs
    apply h
    rw [preorder, preorderAll_eq_flatMap]
    exact List.mem_cons_of_mem _ (List.mem_flatMap_of_mem hc hs)

namespace Draft

def knows (draft : Draft) : Field → Bool
  | .kind => draft.kind.isSome
  | .text => draft.text.isSome
  | .start => draft.start.isSome
  | .stop => draft.stop.isSome
  | .children => draft.children.isSome
  | .other => false

def learn (t : Tree) (draft : Draft) : Field → Draft
  | .kind => { draft with kind := some t.kind }
  | .text => { draft with text := some t.text }
  | .start => { draft with start := some t.span.start }
  | .stop => { draft with stop := some t.span.stop }
  | .children => { draft with children := some t.children }
  | .other => draft

theorem knows_empty (f : Field) : ({} : Draft).knows f = false := by
  cases f <;> rfl

theorem knows_learn (t : Tree) (draft : Draft) (f g : Field) :
    (draft.learn t f).knows g = (draft.knows g || (f == g && g != .other)) := by
  cases f <;> cases g <;> simp [learn, knows]

theorem foldl_learn (t : Tree) (draft : Draft) (fields : List Field) :
    fields.foldl (learn t) draft =
      { kind := if .kind ∈ fields then some t.kind else draft.kind
        text := if .text ∈ fields then some t.text else draft.text
        start := if .start ∈ fields then some t.span.start else draft.start
        stop := if .stop ∈ fields then some t.span.stop else draft.stop
        children := if .children ∈ fields then some t.children else draft.children } := by
  induction fields generalizing draft with
  | nil => rfl
  | cons f fields ih =>
    rw [List.foldl_cons, ih]
    cases f <;> simp [learn]

theorem finish_foldl_learn {t : Tree} {fields : List Field}
    (h : Complete t.text t.children fields) : (fields.foldl (learn t) {}).finish = .ok t := by
  have htext : (if .text ∈ fields then some t.text else none).getD "" = t.text := by
    split
    · rfl
    · rename_i habsent
      exact (h.text.resolve_left habsent).symm
  have hchildren : (if .children ∈ fields then some t.children else none).getD [] = t.children := by
    split
    · rfl
    · rename_i habsent
      exact (h.children.resolve_left habsent).symm
  rw [foldl_learn, finish]
  simp only [if_pos h.kind, if_pos h.start, if_pos h.stop, htext, hchildren]
  cases t
  rfl

section Reading

variable {α : Type} {more : List (List Char)} {cs : List Char}

theorem exists_field {known : Option α} {key : String} {value : Json.Reader α} {d : Datum} {a : α}
    (h : Reads value d a) (hnew : known.isSome = false) (hmore : Closes more)
    (htext : Renders ([':'] :: (d.tokens ++ more)) cs) :
    ∃ rest, field known key value cs = .ok (a, rest) ∧ Renders more rest := by
  obtain ⟨front, hcolon, hfront⟩ := Json.Reader.exists_colon htext
  obtain ⟨rest, hread, hrest⟩ := h hmore hfront
  refine ⟨rest, ?_, hrest⟩
  rw [field, hnew]
  change (Json.Reader.colon >>= fun _ => value) cs = _
  rw [bind_of_eq_ok hcolon, hread]

theorem member_other {child : Json.Reader Tree} {name : String} (draft : Draft)
    (hname : name ∉ fieldNames) :
    draft.member child name = do
      Json.Reader.colon
      Json.Reader.skipValue
      return draft := by
  simp only [fieldNames, List.mem_cons, List.not_mem_nil, or_false, not_or] at hname
  obtain ⟨hkind, htext, hstart, hstop, hchildren⟩ := hname
  rw [member]
  all_goals assumption

variable {t : Tree} {draft : Draft} {child : Json.Reader Tree} {inner : List Datum → Prop}

theorem exists_member {f : Field} {m : Body × Datum}
    (htells : Tells t.kind t.text t.span inner f m) (hnew : draft.knows f = false)
    (hfits : t.FitsWord)
    (hinner : ∀ ds, m.2 = .array ds → inner ds →
      Reads (Json.Reader.sequence child) (.array ds) t.children) :
    ∃ name, m.1.Spells name ∧ ∀ more cs, Closes more → Renders ([':'] :: (m.2.tokens ++ more)) cs →
      ∃ rest, draft.member child name cs = .ok (draft.learn t f, rest) ∧ Renders more rest := by
  cases htells with
  | kind hkey h =>
    refine ⟨"type", hkey, fun more cs hmore htext => ?_⟩
    obtain ⟨rest, hread, hrest⟩ := exists_field (Json.Reader.reads_string h) hnew hmore htext
    refine ⟨rest, ?_, hrest⟩
    rw [member, bind_of_eq_ok hread]
    rfl
  | text hkey h =>
    refine ⟨"text", hkey, fun more cs hmore htext => ?_⟩
    obtain ⟨rest, hread, hrest⟩ := exists_field (Json.Reader.reads_string h) hnew hmore htext
    refine ⟨rest, ?_, hrest⟩
    rw [member, bind_of_eq_ok hread]
    rfl
  | start hkey =>
    refine ⟨"start", hkey, fun more cs hmore htext => ?_⟩
    have hoffset := Json.Reader.reads_offset hfits.span.1
    obtain ⟨rest, hread, hrest⟩ := exists_field hoffset hnew hmore htext
    refine ⟨rest, ?_, hrest⟩
    rw [member, bind_of_eq_ok hread]
    rfl
  | stop hkey =>
    refine ⟨"end", hkey, fun more cs hmore htext => ?_⟩
    have hoffset := Json.Reader.reads_offset hfits.span.2
    obtain ⟨rest, hread, hrest⟩ := exists_field hoffset hnew hmore htext
    refine ⟨rest, ?_, hrest⟩
    rw [member, bind_of_eq_ok hread]
    rfl
  | children hkey h =>
    refine ⟨"children", hkey, fun more cs hmore htext => ?_⟩
    obtain ⟨rest, hread, hrest⟩ := exists_field (hinner _ rfl h) hnew hmore htext
    refine ⟨rest, ?_, hrest⟩
    rw [member, bind_of_eq_ok hread]
    rfl
  | other hkey hname d =>
    refine ⟨_, hkey, fun more cs hmore htext => ?_⟩
    obtain ⟨front, hcolon, hfront⟩ := Json.Reader.exists_colon htext
    obtain ⟨rest, hskip, hrest⟩ := Json.Reader.reads_skipValue d hmore hfront
    refine ⟨rest, ?_, hrest⟩
    rw [member_other draft hname, bind_of_eq_ok hcolon, bind_of_eq_ok hskip]
    rfl

theorem knows_learn_of_once {f : Field} {fields : List Field}
    (hnew : ∀ g ∈ f :: fields, draft.knows g = false)
    (honce : ((f :: fields).filter (· ≠ .other)).Nodup) :
    ∀ g ∈ fields, (draft.learn t f).knows g = false := by
  intro g hg
  rw [knows_learn, hnew g (List.mem_cons_of_mem f hg), Bool.false_or]
  by_cases hsame : f = g
  · subst hsame
    by_cases hother : f = .other
    · simp [hother]
    · rw [List.filter_cons_of_pos (by simpa using hother), List.nodup_cons] at honce
      exact absurd (List.mem_filter.2 ⟨hg, by simpa using hother⟩) honce.1
  · simp [hsame]

theorem exists_members {fields : List Field} {members : List (Body × Datum)} {bound : Nat}
    {first : Bool} (htells : List.Forall₂ (Tells t.kind t.text t.span inner) fields members)
    (hfits : t.FitsWord)
    (hinner : ∀ m ∈ members, ∀ ds, m.2 = .array ds → inner ds →
      Reads (Json.Reader.sequence child) (.array ds) t.children)
    (hnew : ∀ f ∈ fields, draft.knows f = false) (honce : (fields.filter (· ≠ .other)).Nodup)
    (hfinish : (fields.foldl (learn t) draft).finish = .ok t) (hbound : members.length < bound)
    (htext : Renders (tokensOfMembers first members ++ more) cs) :
    ∃ rest, Draft.members child bound first draft cs = .ok (t, rest) ∧ Renders more rest := by
  induction htells generalizing draft bound first cs with
  | nil =>
    obtain ⟨bound, rfl⟩ := Nat.exists_eq_add_one.2 (Nat.zero_lt_of_lt hbound)
    obtain ⟨rest, hnext, hrest⟩ := Json.Reader.exists_nextKey_close first htext
    refine ⟨rest, ?_, hrest⟩
    rw [Draft.members, bind_of_eq_ok hnext]
    change (liftM draft.finish >>= fun a => Json.Reader.advance >>= fun _ => pure a) _ = _
    have hlift : (liftM draft.finish : Json.Reader Tree) ('}' :: rest) = .ok (t, '}' :: rest) := by
      rw [List.foldl_nil] at hfinish
      rw [hfinish]
      rfl
    rw [bind_of_eq_ok hlift]
    rfl
  | @cons f m fields members htell _ ih =>
    obtain ⟨bound, rfl⟩ := Nat.exists_eq_add_one.2 (Nat.zero_lt_of_lt hbound)
    rw [Json.tokensOfMembers_cons_append] at htext
    obtain ⟨name, hkey, hmember⟩ :=
      exists_member htell (hnew f List.mem_cons_self) hfits (hinner m List.mem_cons_self)
    obtain ⟨behindKey, hnext, hbehindKey⟩ := Json.Reader.exists_nextKey hkey htext
    obtain ⟨behind, hread, hbehind⟩ :=
      hmember _ _ (Json.closes_tokensOfMembers members more) hbehindKey
    have hothers : ∀ m' ∈ members, ∀ ds, m'.2 = .array ds → inner ds →
        Reads (Json.Reader.sequence child) (.array ds) t.children :=
      fun m' hm' => hinner m' (List.mem_cons_of_mem m hm')
    have hrestOnce : (fields.filter (· ≠ .other)).Nodup :=
      honce.sublist ((List.sublist_cons_self f fields).filter _)
    have hshorter : members.length < bound := Nat.lt_of_succ_lt_succ hbound
    -- The fields that are left are new to the draft even after it has learnt this one.
    obtain ⟨rest, hloop, hrest⟩ :=
      ih hothers (knows_learn_of_once hnew honce) hrestOnce hfinish hshorter hbehind
    refine ⟨rest, ?_, hrest⟩
    rw [Draft.members, bind_of_eq_ok hnext]
    change (draft.member child name >>= _) behindKey = _
    rw [bind_of_eq_ok hread]
    exact hloop

end Reading

end Draft

section Nesting

theorem reads_children {ts : List Tree} {ds : List Datum} {child : Json.Reader Tree} {depth : Nat}
    (h : EncodesAll ts ds) (hfits : ∀ t ∈ ts, t.FitsWord)
    (hdepth : ∀ d ∈ ds, d.tokens.length ≤ depth)
    (hchild : ∀ t d, t.Encodes d → t.FitsWord → d.tokens.length ≤ depth → Reads child d t) :
    Reads (Json.Reader.sequence child) (.array ds) ts := by
  have hencoded := (List.forall₂_and_left _ _).2 ⟨hfits, encodesAll_iff.1 h⟩
  have hbounded := (List.forall₂_and_left _ _).2 ⟨hdepth, hencoded.flip⟩
  apply Json.Reader.reads_sequence
  exact hbounded.imp fun d t hd => hchild t d hd.2.2 hd.2.1 hd.1

theorem reads_readUpTo (depth : Nat) {t : Tree} {d : Datum} (h : t.Encodes d) (hfits : t.FitsWord)
    (hdepth : d.tokens.length ≤ depth) : Reads (readUpTo depth) d t := by
  induction depth generalizing t d with
  | zero =>
    obtain ⟨c, w, tokens, htokens, _⟩ := d.exists_head
    simp [htokens] at hdepth
  | succ depth ih =>
    obtain ⟨fields, members, rfl, hcomplete, htells⟩ := encodes_iff.1 h
    rw [Datum.tokens, List.length_cons] at hdepth
    have hinner : ∀ m ∈ members, ∀ ds, m.2 = .array ds → EncodesAll t.children ds →
        Reads (Json.Reader.sequence (readUpTo depth)) (.array ds) t.children := by
      intro m hm ds hds hall
      -- A child has fewer tokens than the list it stands in, and the list fewer than the object.
      have hle := Json.length_tokens_le_of_member hm true
      rw [hds, Datum.tokens, List.length_cons] at hle
      refine reads_children hall (fun _ => hfits.child) ?_ fun _ _ => ih
      intro d hd
      have hshort := Json.length_tokens_le_of_mem hd true
      omega
    intro more cs _ htext
    obtain ⟨front, hpeek, hfront⟩ : ∃ front, Json.Reader.peek cs = .ok (some '{', '{' :: front) ∧
        Renders (tokensOfMembers true members ++ more) front :=
      Json.Reader.exists_peek htext (by decide)
    have hbound := Json.Reader.length_lt_of_renders_members hfront
    have hfinish := Draft.finish_foldl_learn hcomplete
    obtain ⟨rest, hloop, hrest⟩ := Draft.exists_members htells hfits hinner
      (fun f _ => Draft.knows_empty f) hcomplete.once hfinish hbound hfront
    refine ⟨rest, ?_, hrest⟩
    rw [readUpTo, bind_of_eq_ok hpeek]
    exact hloop

theorem ofJson_of_encodes {t : Tree} {d : Datum} {text : String} (h : t.Encodes d)
    (hfits : t.FitsWord) (htext : d.IsText text) : ofJson text = .ok t := by
  have hlength : d.tokens.length ≤ text.length + 1 := by
    have hle := Renders.length_le htext
    rw [String.length_toList] at hle
    omega
  exact Json.Reader.all_of_reads (reads_readUpTo _ h hfits hlength) htext

end Nesting

section Writing

mutual

theorem encodes_toJson : (t : Tree) → t.Encodes t.toJson.datum
  | node kind text span children => by
    have hchildren := encodesAll_toJson children
    refine ⟨[.kind, .text, .start, .stop, .children], _, rfl, ?_, ?_⟩
    · exact ⟨by decide, by decide, by decide, .inl (by decide), .inl (by decide), by decide⟩
    · exact .cons (.kind (Body.spells_ofString _) (Body.spells_ofString kind))
        (.cons (.text (Body.spells_ofString _) (Body.spells_ofString text))
          (.cons (.start (Body.spells_ofString _))
            (.cons (.stop (Body.spells_ofString _))
              (.cons (.children (Body.spells_ofString _) hchildren) .nil))))

theorem encodesAll_toJson : (ts : List Tree) → EncodesAll ts (Json.Value.datumsOf (toJsonAll ts))
  | [] => rfl
  | t :: ts => ⟨_, _, encodes_toJson t, encodesAll_toJson ts, rfl⟩

end

end Writing

end GrammarCompletion.Tree

namespace GrammarCompletion.Arena

open Json (Body Datum)

theorem exists_ofTree_of_ordered {t : Tree}
    (h : ∀ s ∈ t.preorder, s.span.start ≤ s.span.stop) : ∃ a, ofTree t = .ok a := by
  cases hbuilt : ofTree t with
  | ok a => exact ⟨a, rfl⟩
  | error fault =>
    obtain ⟨s, hs, hreversed⟩ := exists_error_iff.1 ⟨fault, hbuilt⟩
    exact absurd (h s hs) (Nat.not_le.2 hreversed)

theorem exists_reversedSpan_of_mem {t s : Tree} (hs : s ∈ t.preorder)
    (h : s.span.stop < s.span.start) :
    ∃ kind start stop, ofTree t = .error (.reversedSpan kind start stop) := by
  obtain ⟨fault, hfault⟩ := exists_error_iff.2 ⟨s, hs, h⟩
  obtain ⟨u, _, rfl⟩ := ofTree_eq_error_iff.1 hfault
  exact ⟨u.kind, u.span.start, u.span.stop, hfault⟩

/-- The text that is written for a tree is read as this tree and gives its arena, and so does every other
text that encodes the tree. There is an arena where all spans are in order; else the texts are refused
as the tree itself is. -/
theorem ofJson_eq_ofTree {t : Tree} (hfits : t.FitsWord) :
    (Tree.ofJson t.toJson.write = .ok t ∧ ofJson t.toJson.write = ofTree t) ∧
      (∀ d text, t.Encodes d → d.IsText text →
        Tree.ofJson text = .ok t ∧ ofJson text = ofTree t) ∧
      ((∀ s ∈ t.preorder, s.span.start ≤ s.span.stop) → ∃ a, ofTree t = .ok a) ∧
      ∀ s ∈ t.preorder, s.span.stop < s.span.start →
        ∃ kind start stop, ofTree t = .error (.reversedSpan kind start stop) := by
  have hread : ∀ d text, t.Encodes d → d.IsText text →
      Tree.ofJson text = .ok t ∧ ofJson text = ofTree t := by
    intro d text hencodes htext
    have htree := Tree.ofJson_of_encodes hencodes hfits htext
    exact ⟨htree, by rw [ofJson, htree]⟩
  have hwritten := hread _ _ t.encodes_toJson t.toJson.isText_write
  exact ⟨hwritten, hread, exists_ofTree_of_ordered, fun _ => exists_reversedSpan_of_mem⟩

def farTree : Tree :=
  .node "list" "" ⟨7, 18446744073709551615⟩ [.leaf "']'" "]\"" 7 9]

def farDatum : Datum :=
  .object [(.ofString "end", .number (.ofNat 18446744073709551615)),
    (.ofString "note", .array [.string (.ofString "]\x7d\""), .null, .object []]),
    (.ofString "children", .array [.object [(.ofString "text", .string (.ofString "]\"")),
      (.ofString "type", .string (.ofString "']'")), (.ofString "end", .number (.ofNat 9)),
      (.ofString "start", .number (.ofNat 7))]]),
    (.ofString "start", .number (.ofNat 7)), (.ofString "type", .string (.ofString "list"))]

theorem encodes_farDatum : farTree.Encodes farDatum := by
  refine ⟨[.stop, .other, .children, .start, .kind], _, rfl, ?_, ?_⟩
  · exact ⟨by decide, by decide, by decide, .inr rfl, .inl (by decide), by decide⟩
  · refine .cons (.stop (Body.spells_ofString _))
      (.cons (.other (Body.spells_ofString _) (by decide) _)
        (.cons (.children (Body.spells_ofString _) ?_) (.cons (.start (Body.spells_ofString _))
          (.cons (.kind (Body.spells_ofString _) (Body.spells_ofString _)) .nil))))
    refine ⟨_, _, ⟨[.text, .kind, .stop, .start], _, rfl, ?_, ?_⟩, rfl, rfl⟩
    · exact ⟨by decide, by decide, by decide, .inl (by decide), .inr rfl, by decide⟩
    · exact .cons (.text (Body.spells_ofString _) (Body.spells_ofString _))
        (.cons (.kind (Body.spells_ofString _) (Body.spells_ofString _))
          (.cons (.stop (Body.spells_ofString _)) (.cons (.start (Body.spells_ofString _)) .nil)))

def farText : String :=
  "\x7b\"end\":18446744073709551615,\"note\":[\"]\x7d\\\"\",null,\x7b\x7d]," ++
    "\"children\":[\x7b\"text\":\"]\\\"\",\"type\":\"']'\",\"end\":9,\"start\":7\x7d]," ++
    "\"start\":7,\"type\":\"list\"\x7d"

theorem ofJson_eq_ofTree_far :
    farTree.FitsWord ∧ farTree.Encodes farDatum ∧ farDatum.IsText farText ∧
      (Tree.ofJson farText = .ok farTree ∧ ofJson farText = ofTree farTree) ∧
        ∃ a, ofTree farTree = .ok a := by
  have hfits : farTree.FitsWord := by
    unfold Tree.FitsWord
    decide
  have hcompact : farDatum.compact = farText := by decide +kernel
  have htext : farDatum.IsText farText := by
    rw [← hcompact]
    exact farDatum.isText_compact
  have hordered : ∀ s ∈ farTree.preorder, s.span.start ≤ s.span.stop := by decide
  obtain ⟨_, hread, hok, _⟩ := ofJson_eq_ofTree hfits
  exact ⟨hfits, encodes_farDatum, htext, hread farDatum farText encodes_farDatum htext, hok hordered⟩

end GrammarCompletion.Arena
