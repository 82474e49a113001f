import ViewTemplate.Text.Blank
import ViewTemplate.Text.Casing

/-! # Tag classes of HTML

Each class is a list of tag names. Most are compared as written, the others in lower case.
-/

namespace ViewTemplate.Tag

/-- Lower-case form of a tag name. -/
def lower : String → String := Text.onChars Text.lower

def html : List String := [
  "html", "body", "base", "head", "link", "meta", "style", "title",
  "address", "article", "aside", "footer", "header", "h1", "h2", "h3", "h4", "h5", "h6", "hgroup",
  "nav", "section",
  "div", "dd", "dl", "dt", "figcaption", "figure", "picture", "hr", "img", "li", "main", "ol", "p",
  "pre", "ul",
  "a", "b", "abbr", "bdi", "bdo", "br", "cite", "code", "data", "dfn", "em", "i", "kbd", "mark", "q",
  "rp", "rt", "rtc", "ruby",
  "s", "samp", "small", "span", "strong", "sub", "sup", "time", "u", "var", "wbr", "area", "audio",
  "map", "track", "video",
  "embed", "object", "param", "source", "canvas", "script", "noscript", "del", "ins",
  "caption", "col", "colgroup", "table", "thead", "tbody", "td", "th", "tr",
  "button", "datalist", "fieldset", "form", "input", "label", "legend", "meter", "optgroup", "option",
  "output", "progress", "select", "textarea",
  "details", "dialog", "menu", "menuitem", "summary",
  "content", "element", "shadow", "template", "blockquote", "iframe", "tfoot"]

def svg : List String := [
  "svg", "animate", "circle", "clippath", "cursor", "defs", "desc", "ellipse", "filter", "font-face",
  "foreignobject", "g", "glyph", "image", "line", "marker", "mask", "missing-glyph", "path", "pattern",
  "polygon", "polyline", "rect", "switch", "symbol", "text", "textpath", "tspan", "use", "view"]

def void : List String := [
  "area", "base", "br", "col", "embed", "frame", "hr", "img", "input", "isindex", "keygen",
  "link", "meta", "param", "source", "track", "wbr"]

def leftOpen : List String := [
  "colgroup", "dd", "dt", "li", "options", "p", "td", "tfoot", "th", "thead", "tr", "source"]

def nonPhrasing : List String := [
  "address", "article", "aside", "base", "blockquote", "body", "caption", "col", "colgroup", "dd",
  "details", "dialog", "div", "dl", "dt", "fieldset", "figcaption", "figure", "footer", "form",
  "h1", "h2", "h3", "h4", "h5", "h6", "head", "header", "hgroup", "hr", "html", "legend", "li",
  "menuitem", "meta",
  "optgroup", "option", "param", "rp", "rt", "source", "style", "summary", "tbody", "td", "tfoot",
  "th", "thead",
  "title", "tr", "track"]

def isHtml (tag : String) : Bool := html.contains tag

/-- Compared in lower case. -/
def isSvg (tag : String) : Bool := svg.contains (lower tag)

/-- Elements that never have content or an end tag. -/
def isVoid (tag : String) : Bool := void.contains tag

/-- Elements that end where a sibling of the same name starts. -/
def isLeftOpen (tag : String) : Bool := leftOpen.contains tag

/-- Elements that a paragraph cannot hold. -/
def isNonPhrasing (tag : String) : Bool := nonPhrasing.contains tag

/-- Elements whose content is one text up to their end tag; compared in lower case. -/
def isRawText (tag : String) : Bool := ["script", "style", "textarea"].contains (lower tag)

/-- Elements whose content is kept exactly as written; compared in lower case. -/
def isVerbatim (tag : String) : Bool := ["script", "style", "noscript"].contains (lower tag)

/-- Elements that lose a line feed at the start of their content; compared in lower case. -/
def ignoresFirstNewline (tag : String) : Bool := ["pre", "textarea"].contains (lower tag)

/-- Tags that the compiler itself gives a meaning to. -/
def isBuiltIn (tag : String) : Bool := ["slot", "component"].contains tag

end ViewTemplate.Tag
