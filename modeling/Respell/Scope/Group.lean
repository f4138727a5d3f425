/-!
# Declaration groups

Names that `#declare :group` makes known all at once: those of the language itself, and those of the
two usual hosts on top of them.
-/

namespace Respell.Group

/-- The globals of the language, and `arguments`. -/
def standard : List String :=
  ["arguments", "Array", "Boolean", "Date", "decodeURI", "decodeURIComponent", "encodeURI",
   "encodeURIComponent", "Error", "eval", "EvalError", "Function", "hasOwnProperty", "isFinite",
   "isNaN", "JSON", "Math", "Number", "Object", "parseInt", "parseFloat", "RangeError",
   "ReferenceError", "RegExp", "String", "SyntaxError", "TypeError", "URIError"]

/-- What a server host adds. -/
def node : List String :=
  ["__filename", "__dirname", "Buffer", "console", "exports", "GLOBAL", "global", "module",
   "process", "require", "setTimeout", "clearTimeout", "setInterval", "clearInterval"]

/-- What a browser adds. -/
def browser : List String :=
  ["ArrayBuffer", "ArrayBufferView", "Audio", "addEventListener", "applicationCache", "blur",
   "clearInterval", "clearTimeout", "close", "closed", "DataView", "defaultStatus", "document",
   "event", "FileReader", "Float32Array", "Float64Array", "FormData", "focus", "frames",
   "getComputedStyle", "HTMLElement", "HTMLAnchorElement", "HTMLBaseElement",
   "HTMLBlockquoteElement", "HTMLBodyElement", "HTMLBRElement", "HTMLButtonElement",
   "HTMLCanvasElement", "HTMLDirectoryElement", "HTMLDivElement", "HTMLDListElement",
   "HTMLFieldSetElement", "HTMLFontElement", "HTMLFormElement", "HTMLFrameElement",
   "HTMLFrameSetElement", "HTMLHeadElement", "HTMLHeadingElement", "HTMLHRElement",
   "HTMLHtmlElement", "HTMLIFrameElement", "HTMLImageElement", "HTMLInputElement",
   "HTMLIsIndexElement", "HTMLLabelElement", "HTMLLayerElement", "HTMLLegendElement",
   "HTMLLIElement", "HTMLLinkElement", "HTMLMapElement", "HTMLMenuElement", "HTMLMetaElement",
   "HTMLModElement", "HTMLObjectElement", "HTMLOListElement", "HTMLOptGroupElement",
   "HTMLOptionElement", "HTMLParagraphElement", "HTMLParamElement", "HTMLPreElement",
   "HTMLQuoteElement", "HTMLScriptElement", "HTMLSelectElement", "HTMLStyleElement",
   "HTMLTableCaptionElement", "HTMLTableCellElement", "HTMLTableColElement", "HTMLTableElement",
   "HTMLTableRowElement", "HTMLTableSectionElement", "HTMLTextAreaElement", "HTMLTitleElement",
   "HTMLUListElement", "HTMLVideoElement", "history", "Int16Array", "Int32Array", "Int8Array",
   "Image", "length", "localStorage", "location", "moveBy", "moveTo", "name", "navigator",
   "onbeforeunload", "onblur", "onerror", "onfocus", "onload", "onresize", "onunload", "open",
   "openDatabase", "opener", "Option", "parent", "print", "removeEventListener", "resizeBy",
   "resizeTo", "screen", "scroll", "scrollBy", "scrollTo", "sessionStorage", "setInterval",
   "setTimeout", "SharedWorker", "status", "top", "Uint16Array", "Uint32Array", "Uint8Array",
   "WebSocket", "window", "Worker", "XMLHttpRequest", "XPathEvaluator", "XPathException",
   "XPathExpression", "XPathNamespace", "XPathNSResolver", "XPathResult"]

/-- The names of a group, in order; none if there is no such group. -/
def find? : String → Option (List String)
  | "standard" => some standard
  | "node" => some (standard ++ node)
  | "browser" => some (standard ++ browser)
  | _ => none

end Respell.Group
