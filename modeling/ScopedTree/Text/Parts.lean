/-!
# Parts of a text

* `parts`   the pieces of a text between two of its characters.
-/

namespace ScopedTree

/-- The pieces between the occurrences of `c`; there is at least one. -/
def pieces (c : Char) : List Char → List (List Char)
  | [] => [[]]
  | d :: ds =>
    if d = c then [] :: pieces c ds
    else match pieces c ds with
      | [] => [[d]]
      | piece :: rest => (d :: piece) :: rest

/-- The parts of a text between the occurrences of `c`. -/
def parts (c : Char) (text : String) : List String := (pieces c text.toList).map String.ofList

theorem pieces_of_not_mem {c : Char} : ∀ {ds : List Char}, c ∉ ds → pieces c ds = [ds]
  | [], _ => rfl
  | d :: ds, h => by
    have hd : d ≠ c := fun h' => h (h' ▸ List.mem_cons_self ..)
    rw [pieces, if_neg hd, pieces_of_not_mem fun h' => h (List.mem_cons_of_mem _ h')]

theorem parts_of_not_mem {c : Char} {text : String} (h : c ∉ text.toList) :
    parts c text = [text] := by
  rw [parts, pieces_of_not_mem h, List.map_singleton, String.ofList_toList]

theorem pieces_append {c : Char} : ∀ {ds : List Char}, c ∉ ds → ∀ rest,
    pieces c (ds ++ c :: rest) = ds :: pieces c rest
  | [], _, rest => if_pos rfl
  | d :: ds, h, rest => by
    have hd : d ≠ c := fun h' => h (h' ▸ List.mem_cons_self ..)
    rw [List.cons_append, pieces, if_neg hd,
      pieces_append (fun h' => h (List.mem_cons_of_mem _ h')) rest]

/-- Texts without the character that are put together with it between them are the parts of the
result. -/
theorem parts_intercalate {c : Char} {between : String} (hc : between.toList = [c]) :
    ∀ {texts : List String}, texts ≠ [] → (∀ text ∈ texts, c ∉ text.toList) →
      parts c (between.intercalate texts) = texts
  | [], h, _ => absurd rfl h
  | [text], _, h => by
    rw [String.intercalate_singleton]
    exact parts_of_not_mem (h text (List.mem_singleton_self text))
  | text :: next :: texts, _, h => by
    have hrest := parts_intercalate hc (List.cons_ne_nil next texts)
      fun x hx => h x (List.mem_cons_of_mem _ hx)
    rw [parts] at hrest ⊢
    rw [String.intercalate_cons_cons, String.toList_append, String.toList_append, hc,
      List.append_assoc, List.singleton_append, pieces_append (h text (List.mem_cons_self ..)),
      List.map_cons, String.ofList_toList, hrest]

end ScopedTree
