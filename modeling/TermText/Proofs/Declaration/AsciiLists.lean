import TermText.Proofs.Declaration.Ascii
import TermText.Proofs.Term.Flattening

/-!
# Encodings are lists in ASCII

Whatever is encoded, if it has an encoding then this is a list whose tokens are in ASCII, documents in the
place of texts included: the keywords are, and numerals, doubles and documents are written so. It holds
beyond the model, wherever an encoding succeeds.
-/

namespace TermText

namespace Value

/-- A list whose tokens are in ASCII. -/
def AsciiList (v : Value) : Prop :=
  (∃ items, v = .list items) ∧ v.skeleton.Ascii

/-- A list of values whose tokens are in ASCII. -/
theorem ascii_skeleton_list {items : List Value} :
    (Value.list items).skeleton.Ascii ↔ ∀ item ∈ items, item.skeleton.Ascii := by
  rw [skeleton, skeletons_eq_map, Skeleton.Ascii, Skeleton.allAscii_iff, List.forall_mem_map]

/-- A list with a tag in front is in ASCII if its fields are. -/
theorem asciiList_tagged {tag : Tag} {fields : List Value} (h : ∀ field ∈ fields, field.skeleton.Ascii) :
    (Value.tagged tag fields).AsciiList := by
  refine ⟨⟨_, rfl⟩, ?_⟩
  rw [skeleton_tagged, Skeleton.ascii_headed, List.forall_mem_map]
  exact h

/-- What is added to a list in ASCII leaves it one. -/
theorem AsciiList.addItem {v item : Value} (hv : v.AsciiList) (hitem : item.skeleton.Ascii) :
    (v.addItem item).AsciiList := by
  obtain ⟨⟨items, rfl⟩, hitems⟩ := hv
  refine ⟨⟨_, rfl⟩, ?_⟩
  rw [ascii_skeleton_list] at hitems
  exact ascii_skeleton_list.mpr (List.forall_mem_append.mpr ⟨hitems, List.forall_mem_singleton.mpr hitem⟩)

/-- A list in ASCII is rendered in ASCII. -/
theorem AsciiList.ascii_render {v : Value} (h : v.AsciiList) : v.render.Ascii :=
  render_eq_write v ▸ Skeleton.ascii_write _ h.2

/-- An integer literal has a skeleton of printed ASCII. -/
@[simp] theorem ascii_skeleton_int (n : Int) : (Value.int n).skeleton.Ascii :=
  Skeleton.ascii_ofInt n

/-- A text literal has a skeleton of printed ASCII. -/
@[simp] theorem ascii_skeleton_text (t : Text) : (Value.text t).skeleton.Ascii :=
  Skeleton.ascii_quoted t.units

/-- So has a text literal that holds a document. -/
@[simp] theorem ascii_skeleton_document (given : Json) : (Value.document given).skeleton.Ascii :=
  Json.ascii_compact given

end Value

namespace Encoding

open Value

variable {a b : Except EncodeError Value}

/-- The one field of a tagged list. -/
theorem Gives.asciiWrap (ha : Gives a AsciiList) (tag : Tag) :
    Gives (do
      let v ← a
      .ok (.tagged tag [v])) AsciiList :=
  ha.bind fun _ hv => .ok (asciiList_tagged (List.forall_mem_singleton.mpr hv.2))

/-- The two fields of a tagged list. -/
theorem Gives.asciiBoth (ha : Gives a AsciiList) (hb : Gives b AsciiList) (tag : Tag) :
    Gives (do
      let (v, w) ← Encoding.pair a b
      .ok (.tagged tag [v, w])) AsciiList :=
  (ha.pair hb).bind fun _ h => .ok (asciiList_tagged
    (List.forall_mem_cons.mpr ⟨h.1.2, List.forall_mem_singleton.mpr h.2.2⟩))

end Encoding

/-- The encoding of a segment has a skeleton of printed ASCII. -/
theorem Segment.ascii_skeleton_encode (s : Segment) : s.encode.skeleton.Ascii :=
  s.skeleton_encode ▸ s.form.ascii_skeleton

/-- A name is encoded as a list of printed ASCII. -/
theorem Name.asciiList_encode (n : Name) : Encoding.Gives n.encode Value.AsciiList := by
  cases n with
  | anonymous => exact .ok (Value.asciiList_tagged (List.forall_mem_nil _))
  | extend parent segment hash =>
    refine .bind (.any _) fun above _ => .bind (.any _) fun own _ => .ok (Value.asciiList_tagged ?_)
    simp [Segment.ascii_skeleton_encode]

namespace Level

/-- A level is encoded as a list of printed ASCII within another one. -/
theorem asciiList_encodeBody (l : Level) : Encoding.Gives l.encodeBody Value.AsciiList := by
  induction l with
  | zero => exact .ok (Value.asciiList_tagged (List.forall_mem_nil _))
  | succ l ih => exact ih.asciiWrap .succ
  | max a b iha ihb => exact iha.asciiBoth ihb .max
  | imax a b iha ihb => exact iha.asciiBoth ihb .imax
  | param name => exact name.asciiList_encode
  | metaVar name => exact name.asciiList_encode
  | foreign f => exact .error _

/-- A level by itself is encoded as a list of printed ASCII. -/
theorem asciiList_encode (l : Level) : Encoding.Gives l.encode Value.AsciiList :=
  l.asciiList_encodeBody.asciiWrap .level

end Level

/-- A term is encoded as a list in ASCII: along the recursion that adds one argument at a time. -/
theorem Term.asciiList_encode (t : Term) : Encoding.Gives t.encode Value.AsciiList := by
  rw [encode_eq_encodePlainly]
  induction t with
  | app id fn arg ihfn iharg =>
    refine (ihfn.pair iharg).bind fun (f, a) ⟨hf, ha⟩ => .ok ?_
    by_cases hfn : fn.isApplication = true
    · rw [if_pos hfn]
      exact hf.addItem ha.2
    · rw [if_neg hfn]
      exact Value.asciiList_tagged (List.forall_mem_cons.mpr ⟨hf.2, List.forall_mem_singleton.mpr ha.2⟩)
  | annotated id inner data ih => exact ih
  | lambda id type body binder ihtype ihbody => exact ihtype.asciiBoth ihbody .lambda
  | pi id type body binder ihtype ihbody => exact ihtype.asciiBoth ihbody .pi
  | letIn id type value body binder ihtype ihvalue ihbody =>
    refine (ihtype.pair (ihvalue.pair ihbody)).bind fun (t, v, b) ⟨ht, hv, hb⟩ =>
      .ok (Value.asciiList_tagged ?_)
    simpa using ⟨ht.2, hv.2, hb.2⟩
  | proj id typeName index struct ih =>
    refine (typeName.asciiList_encode.pair ih).bind fun (n, s) ⟨hn, hs⟩ => .ok (Value.asciiList_tagged ?_)
    simpa using ⟨hn.2, hs.2⟩
  | unwritableProj id typeName error struct ih =>
    have hindex : Encoding.Gives (.error (.number error)) Value.AsciiList := .error _
    refine (typeName.asciiList_encode.pair (hindex.pair ih)).bind fun (n, index, s) ⟨hn, hi, hs⟩ =>
      .ok (Value.asciiList_tagged ?_)
    simpa using ⟨hn.2, hi.2, hs.2⟩
  | const id name levels =>
    have hlevels := Encoding.gives_all (List.forall_mem_map.mpr fun l (_ : l ∈ levels) => l.asciiList_encode)
    refine (name.asciiList_encode.pair hlevels).bind fun (n, ls) ⟨hn, hls⟩ => .ok (Value.asciiList_tagged ?_)
    exact List.forall_mem_cons.mpr ⟨hn.2,
      List.forall_mem_singleton.mpr (Value.ascii_skeleton_list.mpr fun l hl => (hls l hl).2)⟩
  | sort id level => exact level.asciiList_encode.asciiWrap .sort
  | metaVar id name => exact name.asciiList_encode.asciiWrap .metaVar
  | freeVar id name => exact name.asciiList_encode
  | boundVar | natural | text | document => exact .ok (Value.asciiList_tagged (by simp))
  | unwritable | foreign => exact .error _

namespace Declaration

mutual

/-- A declaration is encoded as a list in ASCII. -/
theorem asciiList_encode (d : Declaration) : Encoding.Gives d.encode Value.AsciiList := by
  cases d with
  | mk name type payload =>
    refine (name.asciiList_encode.pair (type.asciiList_encode.pair
      (asciiList_encodePayload type payload))).bind fun (n, t, p) ⟨hn, ht, hp⟩ =>
        .ok (Value.asciiList_tagged ?_)
    simpa using ⟨hn.2, ht.2, hp.2⟩

/-- What a declaration holds is encoded as a list of printed ASCII. -/
theorem asciiList_encodePayload (type : Term) (payload : Payload) :
    Encoding.Gives (encodePayload type payload) Value.AsciiList := by
  cases payload with
  | assumption => exact .ok (Value.asciiList_tagged (List.forall_mem_nil _))
  | definition value | proof value => exact value.asciiList_encode.asciiWrap .function
  | sealed value => exact value.asciiList_encode.asciiWrap .sealed
  | quotient kind typeName =>
    refine typeName.asciiList_encode.bind fun n hn => .ok (Value.asciiList_tagged ?_)
    exact List.forall_mem_cons.mpr ⟨kind.ascii_word, List.forall_mem_singleton.mpr hn.2⟩
  | family constructors =>
    refine (type.asciiList_encode.pair (asciiList_encodeAll constructors)).bind fun (t, cs) ⟨ht, hcs⟩ =>
      .ok (Value.asciiList_tagged ?_)
    exact List.forall_mem_cons.mpr ⟨ht.2,
      List.forall_mem_singleton.mpr (Value.ascii_skeleton_list.mpr fun c hc => (hcs c hc).2)⟩
  | constructor owner => exact owner.asciiList_encode.asciiWrap .constructor
  | eliminator => exact type.asciiList_encode.asciiWrap .eliminator
  | foreign f => exact .error _

/-- Several declarations are encoded as lists of printed ASCII. -/
theorem asciiList_encodeAll (ds : List Declaration) :
    Encoding.Gives (encodeAll ds) fun vs => ∀ v ∈ vs, v.AsciiList := by
  cases ds with
  | nil => exact .ok (List.forall_mem_nil _)
  | cons d rest =>
    exact ((asciiList_encode d).pair (asciiList_encodeAll rest)).bind fun (v, vs) h =>
      .ok (List.forall_mem_cons.mpr h)

end

end Declaration

/-- So is a module, whatever names are internal. -/
theorem Module.asciiList_encode (internal : Name → Bool) (m : Module) :
    Encoding.Gives (m.encode internal) Value.AsciiList := by
  refine (m.name.asciiList_encode.pair (Declaration.asciiList_encodeAll _)).bind fun (n, ds) ⟨hn, hds⟩ =>
    .ok (Value.asciiList_tagged (List.forall_mem_cons.mpr ⟨?_, fun d hd => (hds d hd).2⟩))
  exact (Value.asciiList_tagged (List.forall_mem_singleton.mpr hn.2)).2

end TermText
