import MarkdownPreview.Markup.Tag
import MarkdownPreview.Page
import MarkdownPreview.Proofs.EncodedText
import MarkdownPreview.Proofs.FirstMarker
/-!
# What a page keeps apart

A page is written from a title and a fragment, and both can be read off it. The title's code is what
stands between the first `<title>` and the first `</title>` (`IsTitleCode`): no `</` stands in front
of the title, and encoded text has no `<`, so the title cannot close its own element, and what the
fragment says comes too late to matter (`isTitleCode_wrap_iff`). The code gives the title back, and
what is left of the page the fragment.
-/

namespace MarkdownPreview.Page

open Text

/-- The opening tag of a page's title. -/
def titleStart : Text := openTag "title".toList

/-- The closing tag of a page's title. -/
def titleEnd : Text := closeTag "title".toList

/-- What stands between the first `<title>` of a page and the first `</title>` of it. -/
def IsTitleCode (page code : Text) : Prop :=
  ∃ before after, IsFirst titleStart page before (code ++ titleEnd ++ after) ∧
    IsFirst titleEnd page (before ++ titleStart ++ code) after

theorem IsTitleCode.unique {page code code' : Text} (h : IsTitleCode page code)
    (h' : IsTitleCode page code') : code = code' := by
  obtain ⟨before, after, hstart, hend⟩ := h
  obtain ⟨before', after', hstart', hend'⟩ := h'
  have hcode := (hend.unique hend').1
  rw [(hstart.unique hstart').1] at hcode
  exact List.append_cancel_left hcode

variable (title body : Text)

theorem wrap_eq : wrap title body = beforeTitle ++ (Entity.encode title ++ (beforeBody ++ (body ++ afterBody))) := by
  simp only [wrap, List.append_assoc]

/-- The title is opened where the part before it ends. -/
theorem exists_isFirst_titleStart : ∃ before, beforeTitle = before ++ titleStart ∧
    ∀ rest, IsFirst titleStart (beforeTitle ++ rest) before rest := by
  have hcut : cut? titleStart beforeTitle =
      some (beforeTitle.take (beforeTitle.length - titleStart.length), []) := by decide +kernel
  have hfirst := cut?_eq_some_iff.1 hcut
  exact ⟨_, by simpa using hfirst.1, hfirst.append⟩

/-- The title is closed where its code ends. -/
theorem exists_isFirst_titleEnd : ∃ rest, beforeBody = titleEnd ++ rest ∧ ∀ after,
    IsFirst titleEnd (beforeTitle ++ (Entity.encode title ++ (beforeBody ++ after)))
      (beforeTitle ++ Entity.encode title) (rest ++ after) := by
  have hbody : beforeBody = titleEnd ++ beforeBody.drop titleEnd.length := by decide
  refine ⟨_, hbody, fun after => ?_⟩
  have hhere : IsFirst titleEnd (beforeBody ++ after) [] (beforeBody.drop titleEnd.length ++ after) := by
    refine ⟨?_, fun _ _ _ => Nat.zero_le _⟩
    rw [List.nil_append, ← List.append_assoc, ← hbody]
  have hless := Entity.less_not_mem_encode title
  have hcode := hhere.prepend (s := Entity.encode title) (fun hi => hless (hi.subset List.mem_cons_self))
    fun hl => hless (List.mem_of_mem_getLast? hl)
  rw [List.append_nil] at hcode
  exact hcode.prepend (by decide +kernel) (by decide)

/-- **The title of a page** is written between its tags in encoded form, whatever the title and the
fragment are. -/
theorem isTitleCode_wrap_iff {code : Text} :
    IsTitleCode (wrap title body) code ↔ code = Entity.encode title := by
  have hcode : IsTitleCode (wrap title body) (Entity.encode title) := by
    obtain ⟨before, hbefore, hstart⟩ := exists_isFirst_titleStart
    obtain ⟨rest, hrest, hend⟩ := exists_isFirst_titleEnd title
    refine ⟨before, rest ++ (body ++ afterBody), ?_, ?_⟩
    · have hpage := hstart (Entity.encode title ++ (beforeBody ++ (body ++ afterBody)))
      rw [wrap_eq]
      simpa [hrest] using hpage
    · rw [wrap_eq, ← hbefore]
      exact hend _
  constructor
  · exact fun h => h.unique hcode
  · rintro rfl
    exact hcode

/-- **A page keeps its title and its fragment apart.** Pages are equal only if their titles and their
fragments are, and what stands in the title's element is text without markup that decodes to the
title. -/
theorem wrap_readable :
    (∀ title title' body body', wrap title body = wrap title' body' → title = title' ∧ body = body') ∧
      ∀ title body, (∃ code, IsTitleCode (wrap title body) code) ∧
        ∀ code, IsTitleCode (wrap title body) code →
          Entity.decode code = title ∧ ∀ c ∈ code, c ∉ ['<', '>', '"', '\''] := by
  constructor
  · intro title title' body body' h
    have hcode : IsTitleCode (wrap title' body') (Entity.encode title) := by
      rw [← h, isTitleCode_wrap_iff]
    have htitle := Entity.encode_inj.1 ((isTitleCode_wrap_iff title' body').1 hcode)
    subst htitle
    refine ⟨rfl, ?_⟩
    rw [wrap, wrap] at h
    exact List.append_cancel_left (List.append_cancel_right h)
  · intro title body
    refine ⟨⟨_, (isTitleCode_wrap_iff title body).2 rfl⟩, fun code h => ?_⟩
    obtain rfl := (isTitleCode_wrap_iff title body).1 h
    exact ⟨Entity.decode_encode title, fun c => Entity.unreserved_of_mem_encode⟩

end MarkdownPreview.Page
