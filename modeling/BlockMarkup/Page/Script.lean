import BlockMarkup.Json.Value
import BlockMarkup.Node

/-!
# Scripts

The script of a page has a handler for each endpoint and an updater for each key that a directive of
the document names, under the same texts that the page holds. The rest of the script is the same for
every page.
-/

namespace BlockMarkup

structure Script where
  apiBase : String
  endpoints : List String
  keys : List String
  deriving DecidableEq, Repr

namespace Script

/-- Endpoints and keys are listed once each, in the order of first use. Slashes at the end of the
base are dropped. -/
def ofDocument (document : Document) (apiBase : String) : Script :=
  let directives := document.elements.flatMap (·.header.directives)
  { apiBase := String.ofList (apiBase.toList.reverse.dropWhile (· = '/')).reverse
    endpoints :=
      (directives.filterMap fun
        | .call endpoint => some endpoint
        | .data _ => none).eraseDups
    keys :=
      (directives.filterMap fun
        | .data key => some key
        | .call _ => none).eraseDups }

/-- The functions of a script. -/
def functionLines : List String :=
  ["  function renderValue(element, value) \x7b",
    "    if (value === null || value === undefined) \x7b",
    "      element.textContent = \"\";",
    "    \x7d else if (typeof value === \"object\") \x7b",
    "      element.textContent = JSON.stringify(value);",
    "    \x7d else \x7b",
    "      element.textContent = String(value);",
    "    \x7d",
    "  \x7d",
    "",
    "  function applyData(key, value) \x7b",
    "    document.querySelectorAll(\"[data-dynamic]\").forEach(function (element) \x7b",
    "      if (element.getAttribute(\"data-dynamic\") === key) \x7b",
    "        renderValue(element, value);",
    "      \x7d",
    "    \x7d);",
    "  \x7d",
    "",
    "  function setData(key, value) \x7b",
    "    if (Object.prototype.hasOwnProperty.call(dataBindings, key)) \x7b",
    "      dataBindings[key](value);",
    "    \x7d",
    "  \x7d",
    "",
    "  function applyResponse(data) \x7b",
    "    if (data && typeof data === \"object\") \x7b",
    "      Object.keys(data).forEach(function (key) \x7b",
    "        setData(key, data[key]);",
    "      \x7d);",
    "    \x7d",
    "    return data;",
    "  \x7d",
    "",
    "  function callApi(endpoint, element, init) \x7b",
    "    return fetch(API_BASE + \"/\" + encodeURIComponent(endpoint), init || \x7b\x7d)",
    "      .then(function (response) \x7b",
    "        if (!response.ok) \x7b",
    "          throw new Error(endpoint + \": HTTP \" + response.status);",
    "        \x7d",
    "        return response.json();",
    "      \x7d)",
    "      .then(applyResponse)",
    "      .catch(function (error) \x7b",
    "        console.error(\"htmlx:\", error);",
    "        if (element) \x7b",
    "          element.setAttribute(\"data-error\", String(error.message || error));",
    "        \x7d",
    "      \x7d);",
    "  \x7d",
    "",
    "  function postJson(body) \x7b",
    "    return \x7b",
    "      method: \"POST\",",
    "      headers: \x7b \"Content-Type\": \"application/json\" \x7d,",
    "      body: JSON.stringify(body),",
    "    \x7d;",
    "  \x7d",
    "",
    "  function bindApiCall(element) \x7b",
    "    const endpoint = element.getAttribute(\"data-api-call\");",
    "    const handler = apiHandlers[endpoint];",
    "    if (!handler) \x7b",
    "      return;",
    "    \x7d",
    "    const tag = element.tagName.toLowerCase();",
    "    if (tag === \"form\") \x7b",
    "      element.addEventListener(\"submit\", function (event) \x7b",
    "        event.preventDefault();",
    "        const body = \x7b\x7d;",
    "        new FormData(element).forEach(function (value, name) \x7b",
    "          body[name] = value;",
    "        \x7d);",
    "        handler(element, postJson(body));",
    "      \x7d);",
    "    \x7d else if (tag === \"button\" || tag === \"a\" || tag === \"input\") \x7b",
    "      element.addEventListener(\"click\", function (event) \x7b",
    "        event.preventDefault();",
    "        handler(element, postJson(\x7b\x7d));",
    "      \x7d);",
    "    \x7d else \x7b",
    "      handler(element).then(function (data) \x7b",
    "        if (data !== undefined && !element.hasAttribute(\"data-dynamic\")) \x7b",
    "          renderValue(element, data);",
    "        \x7d",
    "      \x7d);",
    "    \x7d",
    "  \x7d",
    "",
    "  function init() \x7b",
    "    document.querySelectorAll(\"[data-api-call]\").forEach(bindApiCall);",
    "  \x7d",
    ""]

/-- The line that makes the script known to its page. -/
def exportLine : String :=
  "  window.htmlx = \x7b apiHandlers: apiHandlers, dataBindings: dataBindings, " ++
    "setData: setData \x7d;"

/-- The lines that start a script once its page is there. -/
def startLines : List String :=
  ["  if (document.readyState === \"loading\") \x7b",
    "    document.addEventListener(\"DOMContentLoaded\", init);",
    "  \x7d else \x7b",
    "    init();",
    "  \x7d"]

/-- The part of the script that is the same for every page. -/
def fixedLines : List String := functionLines ++ exportLine :: "" :: startLines

def lines (ls : List String) : String := Text.join "" (ls.map (· ++ "\n"))

def handlerLine (endpoint : String) : String :=
  let name := Json.literal endpoint
  "    " ++ name ++ ": function (element, init) \x7b return callApi(" ++ name ++
    ", element, init); \x7d,"

def updaterLine (key : String) : String :=
  let name := Json.literal key
  "    " ++ name ++ ": function (value) \x7b applyData(" ++ name ++ ", value); \x7d,"

def text (s : Script) : String :=
  lines <|
    ["(function () \x7b",
      "  \"use strict\";",
      "",
      "  const API_BASE = " ++ Json.literal s.apiBase ++ ";",
      "",
      "  const apiHandlers = \x7b"] ++
    s.endpoints.map handlerLine ++
    ["  \x7d;",
      "",
      "  const dataBindings = \x7b"] ++
    s.keys.map updaterLine ++
    ["  \x7d;",
      ""] ++
    fixedLines ++
    ["\x7d)();"]

end Script

/-- The text of a document's script. -/
def Document.js (document : Document) (apiBase : String) : String :=
  (Script.ofDocument document apiBase).text

end BlockMarkup
