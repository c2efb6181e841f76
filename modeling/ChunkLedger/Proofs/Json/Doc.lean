import ChunkLedger.Json.Reader
import ChunkLedger.Proofs.Json.Token

/-!
# The document of a written value

`v.docBy raw` is the document of the value `v` in which a text `s` stands as `raw s`.  The tokens of
a written value are gathered into its document by `RawText.written` (`run_tokenList`), so that a
reader of the value's text gets this document, in whatever layout (`readFrom_spaced`).
-/

namespace ChunkLedger.Json

namespace Value

mutual

/-- the document of the value, in which a text `s` stands as `raw s` -/
def docBy (raw : String → RawText) : Value → Doc
  | .null => .null
  | .bool b => .bool b
  | .number n => .number (.number n)
  | .text s => .text (raw s)
  | .array items => .array (itemDocsBy raw items) .closed
  | .object fields => .object (fieldDocsBy raw fields) .closed

def itemDocsBy (raw : String → RawText) : List Value → List Doc
  | [] => []
  | v :: vs => v.docBy raw :: itemDocsBy raw vs

def fieldDocsBy (raw : String → RawText) : List (String × Value) → List (RawText × Doc)
  | [] => []
  | (n, v) :: fs => (raw n, v.docBy raw) :: fieldDocsBy raw fs

end

theorem itemDocsBy_eq_map (raw : String → RawText) (vs : List Value) :
    itemDocsBy raw vs = vs.map (docBy raw) := by
  induction vs with
  | nil => simp [itemDocsBy]
  | cons v vs ih => rw [itemDocsBy, ih, List.map_cons]

theorem fieldDocsBy_eq_map (raw : String → RawText) (fs : List (String × Value)) :
    fieldDocsBy raw fs = fs.map fun f => (raw f.1, f.2.docBy raw) := by
  induction fs with
  | nil => simp [fieldDocsBy]
  | cons f fs ih =>
    obtain ⟨n, v⟩ := f
    rw [fieldDocsBy, ih, List.map_cons]

/-- the document of an object with a field for each key -/
theorem docBy_object_map {κ : Type} (raw : String → RawText) (label : κ → String)
    (value : κ → Value) (ks : List κ) :
    (object (ks.map fun k => (label k, value k))).docBy raw
      = .object (ks.map fun k => (raw (label k), (value k).docBy raw)) .closed := by
  rw [docBy, fieldDocsBy_eq_map, List.map_map]
  rfl

mutual

/-- the document made of a value has its texts as they are -/
theorem toDoc_eq_docBy (v : Value) : v.toDoc = v.docBy .ofString := by
  match v with
  | .null => rw [toDoc, docBy]
  | .bool b => rw [toDoc, docBy]
  | .number n => rw [toDoc, docBy]
  | .text s => rw [toDoc, docBy]
  | .array vs => rw [toDoc, docBy, itemDocs_eq_docsBy vs]
  | .object fs => rw [toDoc, docBy, fieldDocs_eq_docsBy fs]

theorem itemDocs_eq_docsBy (vs : List Value) : itemDocs vs = itemDocsBy .ofString vs := by
  match vs with
  | [] => rw [itemDocs, itemDocsBy]
  | v :: vs => rw [itemDocs, itemDocsBy, toDoc_eq_docBy v, itemDocs_eq_docsBy vs]

theorem fieldDocs_eq_docsBy (fs : List (String × Value)) :
    fieldDocs fs = fieldDocsBy .ofString fs := by
  match fs with
  | [] => rw [fieldDocs, fieldDocsBy]
  | (n, v) :: fs => rw [fieldDocs, fieldDocsBy, toDoc_eq_docBy v, fieldDocs_eq_docsBy fs]

end

end Value

/-! ## gathering -/

namespace Stage

/-- the first item of an array is read like any other -/
theorem run_item (v : Value) (outer : List Frame) (ts : List Token) :
    run (.item outer) (v.tokenList ++ ts) = run (.value (.items [] :: outer)) (v.tokenList ++ ts) := by
  cases v with
  | null => rw [Value.tokenList]; rfl
  | bool b => rw [Value.tokenList]; rfl
  | number n => rw [Value.tokenList]; rfl
  | text s => rw [Value.tokenList]; rfl
  | array items => rw [Value.tokenList]; rfl
  | object fields => rw [Value.tokenList]; rfl

mutual

/-- **The tokens of a value are gathered into its document**, whatever it stands in. -/
theorem run_tokenList (v : Value) (outer : List Frame) (ts : List Token) :
    run (.value outer) (v.tokenList ++ ts) = run (.filled (v.docBy .written) outer) ts := by
  match v with
  | .null => rw [Value.tokenList, Value.docBy]; rfl
  | .bool b => rw [Value.tokenList, Value.docBy]; rfl
  | .number n => rw [Value.tokenList, Value.docBy]; rfl
  | .text s => rw [Value.tokenList, Value.docBy]; rfl
  | .array [] =>
    rw [Value.tokenList, Value.itemTokens, Value.docBy, Value.itemDocsBy]
    rfl
  | .array (w :: ws) =>
    have hitems := run_itemTokens (w :: ws) (List.cons_ne_nil w ws) [] outer ts
    rw [Value.tokenList, Value.docBy, List.append_assoc]
    show run (.item outer) (Value.itemTokens (w :: ws) ++ .closeArray :: ts) = _
    have hfirst : run (.item outer) (Value.itemTokens (w :: ws) ++ .closeArray :: ts)
        = run (.value (.items [] :: outer)) (Value.itemTokens (w :: ws) ++ .closeArray :: ts) := by
      cases ws with
      | nil =>
        rw [Value.itemTokens]
        exact run_item w outer _
      | cons x xs =>
        rw [Value.itemTokens, List.append_assoc]
        exact run_item w outer _
    rw [hfirst, hitems]
    rfl
  | .object [] =>
    rw [Value.tokenList, Value.fieldTokens, Value.docBy, Value.fieldDocsBy]
    rfl
  | .object (f :: fs) =>
    have hfields := run_fieldTokens (f :: fs) (List.cons_ne_nil f fs) [] outer ts
    rw [Value.tokenList, Value.docBy, List.append_assoc]
    show run (.name [] outer) (Value.fieldTokens (f :: fs) ++ .closeObject :: ts) = _
    rw [hfields]
    rfl

theorem run_itemTokens (vs : List Value) (hne : vs ≠ []) (done : List Doc) (outer : List Frame)
    (ts : List Token) :
    run (.value (.items done :: outer)) (Value.itemTokens vs ++ .closeArray :: ts)
      = run (.filled (.array (done.reverse ++ Value.itemDocsBy .written vs) .closed) outer) ts := by
  match vs with
  | [] => exact absurd rfl hne
  | [v] =>
    rw [Value.itemTokens, run_tokenList v, Value.itemDocsBy, Value.itemDocsBy]
    show run (.filled (.array (v.docBy .written :: done).reverse .closed) outer) ts = _
    rw [List.reverse_cons]
  | v :: w :: ws =>
    rw [Value.itemTokens, List.append_assoc, run_tokenList v, Value.itemDocsBy]
    show run (.value (.items (v.docBy .written :: done) :: outer))
      (Value.itemTokens (w :: ws) ++ .closeArray :: ts) = _
    rw [run_itemTokens (w :: ws) (List.cons_ne_nil w ws), List.reverse_cons, List.append_assoc,
      List.singleton_append]

theorem run_fieldTokens (fs : List (String × Value)) (hne : fs ≠ []) (done : List (RawText × Doc))
    (outer : List Frame) (ts : List Token) :
    run (.name done outer) (Value.fieldTokens fs ++ .closeObject :: ts)
      = run (.filled (.object (done.reverse ++ Value.fieldDocsBy .written fs) .closed) outer)
        ts := by
  match fs with
  | [] => exact absurd rfl hne
  | [(n, v)] =>
    have hname : run (.name done outer)
          (.text (.written n) :: .colon :: v.tokenList ++ .closeObject :: ts)
        = run (.value (.field done (.written n) :: outer)) (v.tokenList ++ .closeObject :: ts) := by
      cases done <;> rfl
    rw [Value.fieldTokens, hname, run_tokenList v, Value.fieldDocsBy, Value.fieldDocsBy]
    show run (.filled (.object ((.written n, v.docBy .written) :: done).reverse .closed) outer) ts
      = _
    rw [List.reverse_cons]
  | (n, v) :: g :: gs =>
    have hname : run (.name done outer)
          (.text (.written n) :: .colon :: v.tokenList ++ .comma :: Value.fieldTokens (g :: gs) ++
            .closeObject :: ts)
        = run (.value (.field done (.written n) :: outer))
          (v.tokenList ++ (.comma :: Value.fieldTokens (g :: gs) ++ .closeObject :: ts)) := by
      rw [List.append_assoc]
      cases done <;> rfl
    rw [Value.fieldTokens, hname, run_tokenList v, Value.fieldDocsBy]
    show run (.name ((.written n, v.docBy .written) :: done) outer)
      (Value.fieldTokens (g :: gs) ++ .closeObject :: ts) = _
    rw [run_fieldTokens (g :: gs) (List.cons_ne_nil g gs), List.reverse_cons, List.append_assoc,
      List.singleton_append]

end

end Stage

/-! ## whole texts -/

/-- the text of a value, in any layout, is read as the value's document -/
theorem readFrom_spaced {α : Type} (r : Reader α) {v : Value} (s : Spacing) (hv : v.Whole) :
    readFrom r (charsUtf8 (v.spaced s 0)) = r (v.docBy .written) := by
  have hdoc : readDoc (charsUtf8 (v.spaced s 0)) = (v.docBy .written, false) := by
    have htokens := tokens_spaced s v hv 0 (show Ends [] from trivial)
    have hrun := Stage.run_tokenList v [] []
    rw [List.append_nil, tokens_nil, List.append_nil] at htokens
    rw [List.append_nil, Stage.run_nil] at hrun
    rw [readDoc, htokens, hrun]
    rfl
  rw [readFrom, hdoc]
  show (do
    let a ← r (v.docBy .written)
    if false then throw (.form .malformed)
    return a : Except Problem α) = _
  cases r (v.docBy .written) with
  | ok a => rfl
  | error p => rfl

section
variable {α : Type} (r : Reader α) {v : Value} (hv : v.Whole)
include hv

theorem readFrom_renderIndented : readFrom r (utf8 v.renderIndented) = r (v.docBy .written) := by
  rw [Value.renderIndented, utf8_ofList, ← Value.spaced_lines]
  exact readFrom_spaced r .lines hv

theorem readFrom_render : readFrom r (utf8 v.render) = r (v.docBy .written) := by
  rw [Value.render, utf8_ofList, ← Value.spaced_tight v 0]
  exact readFrom_spaced r .tight hv

end

end ChunkLedger.Json
