import ReminderSuite.Rendering
import ReminderSuite.Spelling

/-! Lookups of one field of one record: what a session answers to them, and the label under
which the gateway shows the answer. -/
namespace ReminderSuite
open Delimited FirstMatch FallibleRun RdbHandler
variable {ν : Type}

def lookupText (name field : Bytes) : Bytes := ascii "/get/" ++ name ++ ascii "/" ++ field

def notFound : Bytes := ascii "ERROR: Not found"

/-- No entry has the name, there is no such field, or the first entry of that name has no
value at its position. -/
def DBTextFile.Missing (db : DBTextFile) (name field : Bytes) : Prop :=
  (∀ e ∈ db.entries_, e.name ≠ name) ∨ field ∉ db.fields_ ∨
    ∃ it, db.Found name it ∧ it.here.values.length ≤ db.fields_.idxOf field

/-- The lookup is answered, with the error exactly when the data is missing and else with
the value. -/
def LookupFaithful (s : TextStore) (session : Session) (name field : Bytes) : Prop :=
  ∃ session' s', parseRequest textLibrary (lookupText name field) session s = .ok (session', s') ∧
    (notFound <+: session'.response_ ↔ s.db.Missing name field) ∧
    (¬ s.db.Missing name field →
      ∃ v, s.db.cell? name field = some v ∧ session'.response_ = v ++ [lf])

namespace DBTextFile
variable {db : DBTextFile} {name field : Bytes}

theorem findField_eq_some_iff {idx : Nat} :
    db.findField field = some idx ↔ field ∈ db.fields_ ∧ db.fields_.idxOf field = idx := by
  rw [findField_eq_findIdx?, List.findIdx?_eq_some_iff_findIdx_eq, ← List.idxOf_lt_length_iff]
  simp only [List.idxOf]
  constructor
  · intro h
    obtain ⟨hlt, rfl⟩ := h
    exact ⟨hlt, rfl⟩
  · intro h
    obtain ⟨hlt, rfl⟩ := h
    exact ⟨hlt, rfl⟩

theorem findField_eq_none_iff : db.findField field = none ↔ field ∉ db.fields_ := by
  rw [findField_eq_findIdx?, List.findIdx?_eq_none_iff]
  simp only [beq_eq_false_iff_ne]
  exact ⟨fun h hmem => h field hmem rfl, fun h f hf heq => h (heq ▸ hf)⟩

theorem missing_iff : db.Missing name field ↔ db.cell? name field = none := by
  unfold Missing cell?
  cases hn : db.findName name with
  | none => exact iff_of_true (Or.inl (findName_eq_none_iff.mp hn)) rfl
  | some it =>
    have hit := found_of_findName hn
    have hname : ¬ ∀ e ∈ db.entries_, e.name ≠ name := fun h => h _ hit.mem hit.name_eq
    have hfirst (other : Cursor Entry) (h : db.Found name other) : other = it :=
      Option.some.inj ((findName_of_found h).symm.trans hn)
    cases hf : db.findField field with
    | none => simp [findField_eq_none_iff.mp hf]
    | some idx =>
      obtain ⟨hmem, rfl⟩ := findField_eq_some_iff.mp hf
      simp only [hname, hmem, not_true_eq_false, false_or, List.getElem?_eq_none_iff]
      constructor
      · intro h
        obtain ⟨other, hother, hle⟩ := h
        rwa [hfirst other hother] at hle
      · exact fun hle => ⟨it, hit, hle⟩

theorem cell?_of_found {it : Cursor Entry} (hit : db.Found name it) (hf : field ∈ db.fields_) :
    db.cell? name field = it.here.values[db.fields_.idxOf field]? := by
  simp [cell?, findName_of_found hit, findField_eq_some_iff.mpr ⟨hf, rfl⟩]

theorem get_of_cell (hne : field ≠ []) {v : Bytes} (h : db.cell? name field = some v) :
    db.get name field = .ok v := by
  unfold cell? at h
  cases hn : db.findName name with
  | none => simp [hn] at h
  | some it =>
    cases hf : db.findField field with
    | none => simp [hn, hf] at h
    | some idx =>
      have hv : it.here.values[idx]? = some v := by simpa [hn, hf] using h
      simp [get, hn, hf, hne, Entry.getValue, hv]

theorem get_of_short (hne : field ≠ []) {it : Cursor Entry} (hit : db.Found name it)
    (hf : field ∈ db.fields_) (h : db.cell? name field = none) :
    db.get name field = .error .pastEnd := by
  have hidx := findField_eq_some_iff.mpr ⟨hf, rfl⟩
  rw [cell?_of_found hit hf] at h
  simp [get, findName_of_found hit, hidx, hne, Entry.getValue, h]

theorem get_of_unknown (hne : field ≠ [])
    (h : (∀ e ∈ db.entries_, e.name ≠ name) ∨ field ∉ db.fields_) :
    db.get name field = .ok [] := by
  cases hn : db.findName name with
  | none => simp [get, hn]
  | some it =>
    have hit := found_of_findName hn
    cases h with
    | inl hname => exact absurd hit.name_eq (hname _ hit.mem)
    | inr hfield => simp [get, hn, hne, findField_eq_none_iff.mpr hfield]

end DBTextFile

theorem stripCRLF_lookupText {name field : Bytes} (hn : Clean name) (hf : Clean field) :
    stripCRLF (lookupText name field) = spell [ascii "get", name, field] := by
  have hspell : lookupText name field = spell [ascii "get", name, field] := by
    simp [lookupText, spell, ascii, ch, slash]
  rw [hspell, stripCRLF_spell]
  simp [hn, hf, ascii_get_clean]

theorem plan_lookupText {name field : Bytes} (hn : Clean name) (hf : Clean field)
    (hne : field ≠ []) :
    plan (segments (lookupText name field)) = .ok (some (.get name field)) := by
  rw [segments_command [name] ascii_get_clean (by simpa using hn) hf (stripCRLF_lookupText hn hf),
    if_neg hne]
  rfl

section Session
variable {s : TextStore} {session : Session} {name field : Bytes}

theorem parseRequest_lookup (session : Session) (hn : Clean name) (hf : Clean field)
    (hne : field ≠ []) {reply : Bytes} (h : s.db.get name field = .ok reply) :
    parseRequest textLibrary (lookupText name field) session s =
      .ok (Session.doWrite { session with
        response_ := if reply = [] then ascii "ERROR: Not found: " ++
          stripCRLF (lookupText name field)
          else reply }, s) := by
  have hi : textLibrary.invoke (.get name field) s = .ok (.text reply, s) := by
    simp [invoke_text, h]
  rw [parseRequest_call (plan_lookupText hn hf hne) hi]
  simp [answer]

theorem parseRequest_lookup_error (session : Session) (hn : Clean name) (hf : Clean field)
    (hne : field ≠ []) {fault : Fault} (h : s.db.get name field = .error fault) :
    parseRequest textLibrary (lookupText name field) session s = .error fault := by
  rw [parseRequest_error_iff]
  refine Or.inr ⟨_, plan_lookupText hn hf hne, ?_⟩
  simp [invoke_text, h]

theorem notFound_begins (cmd : Bytes) : notFound <+: ascii "ERROR: Not found: " ++ cmd ++ [lf] := by
  have hprompt : ascii "ERROR: Not found: " = notFound ++ ascii ": " := by decide
  rw [hprompt, List.append_assoc, List.append_assoc]
  exact List.prefix_append _ _

theorem notFound_begins_line_iff {v : Bytes} : notFound <+: v ++ [lf] ↔ notFound <+: v := by
  rw [List.prefix_concat_iff]
  refine or_iff_right fun heq => ?_
  have hlf : lf ∉ notFound := by decide
  exact hlf (by simp [heq])

theorem lookup_unknown (hn : Clean name) (hf : Clean field) (hne : field ≠ [])
    (h : (∀ e ∈ s.db.entries_, e.name ≠ name) ∨ field ∉ s.db.fields_) :
    LookupFaithful s session name field := by
  have hmissing : s.db.Missing name field := h.imp_right Or.inl
  refine ⟨_, s, parseRequest_lookup session hn hf hne (DBTextFile.get_of_unknown hne h), ?_, ?_⟩
  · rw [if_pos rfl]
    exact iff_of_true (notFound_begins _) hmissing
  · exact fun hpresent => absurd hmissing hpresent

theorem lookup_value_iff (hn : Clean name) (hf : Clean field) (hne : field ≠ []) {v : Bytes}
    (hcell : s.db.cell? name field = some v) (hexcept : ¬ notFound <+: v) :
    LookupFaithful s session name field ↔ v ≠ [] := by
  have hpresent : ¬ s.db.Missing name field := by simp [DBTextFile.missing_iff, hcell]
  have hreply := parseRequest_lookup session hn hf hne
    (DBTextFile.get_of_cell hne hcell)
  constructor
  · intro h hempty
    obtain ⟨session', s', hanswer, herror, -⟩ := h
    obtain ⟨rfl, rfl⟩ := Prod.mk.inj (Except.ok.inj (hreply.symm.trans hanswer))
    rw [if_pos hempty] at herror
    exact hpresent (herror.mp (notFound_begins _))
  · intro hv
    refine ⟨_, s, hreply, ?_, fun _ => ⟨v, hcell, ?_⟩⟩
    · rw [if_neg hv]
      exact iff_of_false (mt notFound_begins_line_iff.mp hexcept) hpresent
    · rw [if_neg hv]
      rfl

/-- For every store, name and field, but for values that look like the error text: a lookup
is answered with the error exactly when the data is missing, and else with the value,
exactly when an entry and a field that are both there have a value that is not empty. -/
theorem lookup_faithful_iff (s : TextStore) (session : Session) (name field : Bytes)
    (hn : Clean name) (hf : Clean field) (hne : field ≠ [])
    (hexcept : ∀ v, s.db.cell? name field = some v → ¬ notFound <+: v) :
    LookupFaithful s session name field ↔ ∀ it, s.db.Found name it → field ∈ s.db.fields_ →
      ∃ v, it.here.values[s.db.fields_.idxOf field]? = some v ∧ v ≠ [] := by
  by_cases hknown : (∃ it, s.db.Found name it) ∧ field ∈ s.db.fields_
  · obtain ⟨⟨it, hit⟩, hmem⟩ := hknown
    have hcell := DBTextFile.cell?_of_found hit hmem
    have hfirst (other : Cursor Entry) (h : s.db.Found name other) : other = it :=
      Option.some.inj ((DBTextFile.findName_of_found h).symm.trans
        (DBTextFile.findName_of_found hit))
    have hcond : (∀ it, s.db.Found name it → field ∈ s.db.fields_ →
        ∃ v, it.here.values[s.db.fields_.idxOf field]? = some v ∧ v ≠ []) ↔
          ∃ v, s.db.cell? name field = some v ∧ v ≠ [] := by
      rw [hcell]
      constructor
      · exact fun h => h it hit hmem
      · intro h other hother _
        rwa [hfirst other hother]
    rw [hcond]
    cases hv : s.db.cell? name field with
    | none =>
      -- the value is read past the end of the record, and nothing is answered
      refine iff_of_false ?_ (by simp)
      intro h
      obtain ⟨session', s', hanswer, -⟩ := h
      have herror := parseRequest_lookup_error session hn hf hne
        (DBTextFile.get_of_short hne hit hmem hv)
      simp [herror] at hanswer
    | some v =>
      rw [lookup_value_iff hn hf hne hv (hexcept v hv)]
      simp
  · have hunknown : (∀ e ∈ s.db.entries_, e.name ≠ name) ∨ field ∉ s.db.fields_ := by
      refine (not_and_or.mp hknown).imp_left fun hno => ?_
      refine DBTextFile.findName_eq_none_iff.mp
        (Option.eq_none_iff_forall_ne_some.mpr fun it hit => ?_)
      exact hno ⟨it, DBTextFile.found_of_findName hit⟩
    refine iff_of_true (lookup_unknown hn hf hne hunknown) fun it hit hmem => ?_
    exact absurd ⟨⟨it, hit⟩, hmem⟩ hknown

/-- A field that has a value -/
theorem lookup_faithful_iff_sample :
    LookupFaithful (Server.ofFile (ascii "name:note\nmilk:x\n")).store Session.start (ascii "milk")
      (ascii "note") := by
  have hclean : Clean (ascii "milk") ∧ Clean (ascii "note") := by
    unfold Clean
    decide
  have hvalue : (Server.ofFile (ascii "name:note\nmilk:x\n")).store.db.cell? (ascii "milk")
      (ascii "note") = some (ascii "x") := by decide
  refine (lookup_faithful_iff _ Session.start (ascii "milk") (ascii "note") hclean.1 hclean.2
    (by decide) ?_).mpr fun it hit hmem => ?_
  · intro v hv
    obtain rfl : ascii "x" = v := Option.some.inj (hvalue.symm.trans hv)
    decide
  · rw [← DBTextFile.cell?_of_found hit hmem]
    exact ⟨_, hvalue, by decide⟩

/-- The value is there, and it is empty. -/
theorem empty_value_not_found :
    let s := (Server.ofFile (ascii "name:note\nmilk::\n")).store
    let response := ascii "ERROR: Not found: /get/milk/note\n"
    s.db.cell? (ascii "milk") (ascii "note") = some [] ∧
    parseRequest textLibrary (lookupText (ascii "milk") (ascii "note")) Session.start s =
      .ok (⟨response, [response]⟩, s) ∧
    ¬ LookupFaithful s Session.start (ascii "milk") (ascii "note") := by
  intro s response
  have hclean : Clean (ascii "milk") ∧ Clean (ascii "note") := by
    unfold Clean
    decide
  have hvalue : s.db.cell? (ascii "milk") (ascii "note") = some [] := by decide
  refine ⟨hvalue, by decide, fun h => ?_⟩
  exact (lookup_value_iff hclean.1 hclean.2 (by decide) hvalue (by decide)).mp h rfl

end Session

def PTree.ShowsOnly (t : PTree) (field value : Bytes) : Prop :=
  ∃ nodes key row, t.children = [(ascii "reminders", nodes)] ∧ nodes.children = [(key, row)] ∧
    row.children = [(field, .leaf value)]

theorem showsOnly_iff {label field value : Bytes} {key : Bytes} :
    (remindersTree [(key, .node [] [(label, .leaf value)])]).ShowsOnly field value ↔
      label = field := by
  constructor
  · intro h
    obtain ⟨nodes, key', row, hnodes, hrow, hpair⟩ := h
    obtain ⟨-, rfl⟩ := Prod.mk.inj (List.singleton_inj.mp hnodes)
    obtain ⟨-, rfl⟩ := Prod.mk.inj (List.singleton_inj.mp hrow)
    exact (Prod.mk.inj (List.singleton_inj.mp hpair)).1
  · intro h
    subst h
    exact ⟨_, key, _, rfl, rfl, rfl⟩

section Gateway
variable {net : Network ν} {storeOf : ν → TextStore} {ops : PTreeOps} {w : ν}

theorem listing_value (hops : ops.Appends) {label value : Bytes} (rest : List Bytes)
    (hkey : label ≠ [] ∧ dot ∉ label) (hne : value ≠ []) (hcolon : colon ∉ value) :
    listing ops (label :: rest) [value] =
      .ok (remindersTree [([], .node [] [(label, .leaf value)])]) := by
  have hput : ops.put .empty label value = .node [] [(label, .leaf value)] :=
    hops.put .empty label value hkey.1 hkey.2 (by simp [PTree.empty, PTree.leaf, PTree.children])
  have hrow : tokens colon value = [value] := tokens_of_sep_not_mem hcolon
  have hreminders : ascii "reminders" ≠ [] ∧ dot ∉ ascii "reminders" := by decide
  have hroot := addChild_empty hops hreminders.1 hreminders.2
  have hfull : value.isEmpty = false := by simpa using hne
  simp only [listing, rows, hfull, hrow, rowNode, hput]
  exact congrArg Except.ok (hroot _)

theorem parse_lookup (hnet : WholeDelivery net storeOf) (hops : ops.Appends)
    (hsafe : LineSafe (storeOf w).db) (hkey : ∀ f ∈ (storeOf w).db.fields_, f ≠ [] ∧ dot ∉ f)
    {name field value : Bytes} (hn : Clean name) (hf : Clean field) (hne : field ≠ [])
    (hcell : (storeOf w).db.cell? name field = some value) (hvalue : value ≠ [])
    (hplain : Plain value) (hcmd : (lookupText name field).length ≤ 8192)
    (hfields : ((storeOf w).db.fields ++ [lf]).length ≤ 8192)
    (hreply : (value ++ [lf]).length ≤ 8192) :
    ∃ label, (storeOf w).db.fields_.head? = some label ∧
      (parse ops (dataClient net) (ascii "/rdb" ++ lookupText name field) w).1 =
        .ok (some (.json (remindersTree [([], .node [] [(label, .leaf value)])]))) := by
  obtain ⟨label, rest, hlabels⟩ := List.exists_cons_of_ne_nil hsafe.fields_ne
  have hget : isGet (lookupText name field) = true := by
    simp [isGet, lookupText, ascii, ch]
  have hanswer := parseRequest_lookup Session.start hn hf hne
    (DBTextFile.get_of_cell hne hcell)
  rw [if_neg hvalue] at hanswer
  have hlabel : label ∈ (storeOf w).db.fields_ := by simp [hlabels]
  refine ⟨label, by rw [hlabels, List.head?_cons], ?_⟩
  rw [parse_get hnet (lf_not_mem_fields hsafe) hget hanswer hcmd hfields hreply,
    tokens_fields hsafe, Session.doWrite, tokens_line hplain.2, hlabels,
    listing_value hops rest (hkey label hlabel) hvalue hplain.1]
  rfl

/-- For every value that is there: the tree that the gateway makes of its lookup shows it
alone under the field that was asked for exactly when that is the first field. -/
theorem field_label_iff (net : Network ν) (storeOf : ν → TextStore) (ops : PTreeOps)
    (hnet : WholeDelivery net storeOf) (hops : ops.Appends) (w : ν)
    (hsafe : LineSafe (storeOf w).db) (hkey : ∀ f ∈ (storeOf w).db.fields_, f ≠ [] ∧ dot ∉ f)
    (name field value : Bytes) (hn : Clean name) (hf : Clean field) (hne : field ≠ [])
    (hcell : (storeOf w).db.cell? name field = some value) (hvalue : value ≠ [])
    (hplain : Plain value) (hcmd : (ascii "/get/" ++ name ++ ascii "/" ++ field).length ≤ 8192)
    (hfields : ((storeOf w).db.fields ++ [lf]).length ≤ 8192)
    (hreply : (value ++ [lf]).length ≤ 8192) :
    (∃ tree, (parse ops (dataClient net) (ascii "/rdb/get/" ++ name ++ ascii "/" ++ field) w).1 =
      .ok (some (.json tree)) ∧ tree.ShowsOnly field value) ↔
        (storeOf w).db.fields_.head? = some field := by
  obtain ⟨label, hhead, hparse⟩ := parse_lookup hnet hops hsafe hkey hn hf hne hcell hvalue hplain
    hcmd hfields hreply
  have hpath : ascii "/rdb/get/" ++ name ++ ascii "/" ++ field =
      ascii "/rdb" ++ lookupText name field := by
    simp [lookupText, ascii]
  rw [hpath, hparse, hhead, Option.some.injEq]
  constructor
  · intro h
    obtain ⟨tree, htree, hshows⟩ := h
    obtain rfl := RdbReply.json.inj (Option.some.inj (Except.ok.inj htree))
    exact showsOnly_iff.mp hshows
  · exact fun h => ⟨_, rfl, showsOnly_iff.mpr h⟩

/-- The name of a record under the first field -/
theorem field_label_iff_sample :
    ∃ tree, (parse plainTree (dataClient loopback)
      (ascii "/rdb/get/" ++ ascii "milk" ++ ascii "/" ++ ascii "name")
      ((Server.ofFile (ascii "name:note\nmilk:x\n")).store, [])).1 = .ok (some (.json tree)) ∧
      tree.ShowsOnly (ascii "name") (ascii "milk") := by
  have hsafe : LineSafe (Server.ofFile (ascii "name:note\nmilk:x\n")).store.db :=
    (durable_run _ []).memory_safe
  refine (field_label_iff loopback Prod.fst plainTree loopback_whole plainTree_appends
    ((Server.ofFile (ascii "name:note\nmilk:x\n")).store, []) hsafe (by decide) (ascii "milk")
    (ascii "name") (ascii "milk") ?_ ?_ (by decide) (by decide) (by decide) (by decide) (by decide)
    (by decide) (by decide)).mpr (by decide)
  · unfold Clean
    decide
  · unfold Clean
    decide

/-- The note of a record comes back as its name. -/
theorem note_labelled_name :
    let s := (Server.ofFile (ascii "name:note\nmilk:x\n")).store
    let output := (parse plainTree (dataClient loopback) (ascii "/rdb/get/milk/note") (s, [])).1
    s.db.cell? (ascii "milk") (ascii "note") = some (ascii "x") ∧
    output = .ok (some (.json
      (remindersTree [([], .node [] [(ascii "name", .leaf (ascii "x"))])]))) ∧
    ¬ ∃ tree, output = .ok (some (.json tree)) ∧ tree.ShowsOnly (ascii "note") (ascii "x") := by
  intro s output
  have hsafe : LineSafe s.db := (durable_run _ []).memory_safe
  have hclean : Clean (ascii "milk") ∧ Clean (ascii "note") := by
    unfold Clean
    decide
  have hvalue : s.db.cell? (ascii "milk") (ascii "note") = some (ascii "x") := by decide
  obtain ⟨label, hhead, hparse⟩ := parse_lookup (w := (s, [])) loopback_whole plainTree_appends
    hsafe (by decide) hclean.1 hclean.2 (by decide) hvalue (by decide) (by decide) (by decide)
    (by decide) (by decide)
  obtain rfl : ascii "name" = label := Option.some.inj hhead
  have hpath : ascii "/rdb" ++ lookupText (ascii "milk") (ascii "note") =
      ascii "/rdb/get/milk/note" := by decide
  rw [hpath] at hparse
  refine ⟨hvalue, hparse, fun h => ?_⟩
  obtain ⟨tree, htree, hshows⟩ := h
  obtain rfl := RdbReply.json.inj (Option.some.inj (Except.ok.inj (hparse.symm.trans htree)))
  exact absurd (showsOnly_iff.mp hshows) (by decide)

end Gateway
end ReminderSuite
